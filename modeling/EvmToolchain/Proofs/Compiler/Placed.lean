import EvmToolchain.Proofs.Code.Linking
import EvmToolchain.Proofs.Compiler.Expression
import EvmToolchain.Proofs.Machine.Growth

/-!
# EvmToolchain.Proofs.Compiler.Placed

Compiled expressions at work anywhere in assembled code.

The code that a session emits for an expression may be placed in any stream of
instructions that is assembled, and run from any state that stands at its start.
As a value it leaves the word that the expression denotes on the stack
(`Session.compile_computes`), and as a condition it jumps as that word says
(`Session.compileBranch_branches`). Where the expression denotes no word, the
machine halts as it accesses memory past the bound. Either way the words that were
on the stack and the storage are left alone, and memory has at most been extended
by zeros.
-/

namespace EvmToolchain

open Instruction Assembly

namespace Machine

/-- The machine gets from a state to an offset of the code, with a given stack.
What else it changes are steps counted and zeros added to the memory. -/
def Arrives (p : Program) (s : State) (pc : Nat) (stack : List Nat) : Prop :=
  ∃ n t, Steps p n s t ∧ t.pc = pc ∧ t.stack = stack ∧ t.storage = s.storage ∧
    ∃ count, t.memory = s.memory ++ Bytes.zeros count

/-- The machine gets from a state to an exceptional halt, since it accesses memory
past the bound. What else it changes are steps counted, words pushed and zeros
added to the memory. -/
def Exceeds (p : Program) (s : State) : Prop :=
  ∃ n t, EndsAfter p n s ⟨.faulted .memoryBound, t⟩ ∧ s.stack <:+ t.stack ∧
    t.storage = s.storage ∧ ∃ count, t.memory = s.memory ++ Bytes.zeros count

variable {p : Program} {s : State}

/-- Where a configuration leads to one that reads the same memory, memory has at
most been extended by zeros. -/
theorem arrives_of_leads {pc : Nat} {stack : List Nat}
    (h : Leads p s.config (.config { s.config with pc, stack })) : Arrives p s pc stack := by
  obtain ⟨n, t, hsteps, ht⟩ := h s rfl
  obtain ⟨hpc, hstack, hmemory, hstorage⟩ := Config.mk.inj ht
  exact ⟨n + 1, t, hsteps, hpc, hstack, hstorage,
    Memory.exists_append_zeros hsteps.memory_size_le hmemory⟩

theorem exceeds_of_leads
    (h : Leads p s.config (.memoryBound s.stack s.memory.byteAt s.storage)) : Exceeds p s := by
  obtain ⟨n, t, hends, hstack, hmemory, hstorage⟩ := h s rfl
  have hrun : runFrom p 0 n s = .ok ⟨.faulted .memoryBound, t⟩ := by
    rw [hends, if_pos (Nat.le_refl n)]
  exact ⟨n, t, hends, hstack, hstorage,
    Memory.exists_append_zeros (memory_size_le_of_runFrom hrun) hmemory⟩

/-- A computation gets to its result, or traps if there is none. -/
theorem arrives_or_exceeds {result : Option Semantics.Word} {pc : Semantics.Word → Nat}
    {stack : Semantics.Word → List Nat} :
    Leads p s.config (.orTrap (.memoryBound s.stack s.memory.byteAt s.storage) result fun v =>
      .config { s.config with pc := pc v, stack := stack v }) →
    match result with
    | none => Exceeds p s
    | some v => Arrives p s (pc v) (stack v) := by
  intro h
  cases result with
  | none => exact exceeds_of_leads h
  | some v => exact arrives_of_leads h

end Machine

/-- The labels that a condition is compiled with, one of which is left out. -/
def BranchTarget.labels : BranchTarget → Option Int × Option Int
  | whenTrue label => (some label, none)
  | whenFalse label => (none, some label)

/-! ### Literals in examples -/

/-- The literal one. -/
def Literal.one : Literal := ⟨.decimal, "1", rfl⟩

/-- One is pushed as a byte. -/
theorem Emitter.pushLiteral_one : pushLiteral {} .one = emit [.push [1]] := by
  have hlong : Literal.one.isTooLong = false := by decide
  have hvalue : Literal.one.value = 1 := rfl
  have hwidth : BigEndian.width 1 = 1 := by simp [BigEndian.width]
  rw [pushLiteral, hlong, hvalue, push, makePush]
  simp only [Int.natAbs_natCast, hwidth]
  rfl

namespace Session

open Machine

variable {s after : Session} {t : Term} {code pre post : List Instruction} {bytecode : Bytes}

/-- What a session emits for a piece of code, the piece yields. -/
theorem yields_of_run {e : Emitter} (h : s.run e = (after, .ok ()))
    (hcode : after.instructions = s.instructions ++ code) :
    ∃ labels, e.Yields s.labels code labels := by
  obtain ⟨emitted, labels, hyields, rfl⟩ := run_ok h
  obtain rfl : emitted = code := List.append_cancel_left hcode
  exact ⟨labels, hyields⟩

/-- The code of an expression computes it. Whatever stands before and after the
code, if all of it is instructions proper and has been assembled, and whatever
the state at the start of the code, if the stack has room: the run gets behind
the code with the word that the expression denotes on top of the stack, or it ends
with the access to memory past the bound that leaves the expression without one. -/
theorem compile_computes (ht : t.IsExpression) (hcompile : s.compile t = (after, .ok ()))
    (hcode : after.instructions = s.instructions ++ code)
    (hassembled : Assembled (pre ++ code ++ post) bytecode) (calldata : Bytes) {m : State}
    (hpc : m.pc = codeSize pre) (hroom : peak m.stack.length code ≤ maxStack) :
    match Semantics.eval ⟨calldata, m.memory.byteAt, m.storage⟩ t with
    | none => Exceeds (.load bytecode calldata) m
    | some v => Arrives (.load bytecode calldata) m (m.pc + codeSize code) (v.toNat :: m.stack) := by
  obtain ⟨labels, hyields⟩ := yields_of_run hcompile hcode
  let x : Site := ⟨_, bytecode, hassembled, calldata, m.memory.byteAt, m.storage⟩
  have hplaced : PlacedAt x.stream m.pc code := ⟨pre, post, rfl, hpc⟩
  exact arrives_or_exceeds ((ht.correct x s.options).value hyields m.pc m.stack hplaced hroom)

/-- A connective, compiled and placed between other instructions. -/
theorem compile_computes_and :
    ∃ after, ({} : Session).compile (.connective .and (.literal .one) (.literal .one))
        = (after, .ok ()) ∧
      Assembly.assemble ([.push0] ++ after.instructions ++ [op .stop])
        = .ok [0x5f, 0x60, 0x01, 0x80, 0x15, 0x61, 0x00, 0x0c, 0x57, 0x50, 0x60, 0x01, 0x5b,
          0x00] ∧
      Arrives (.load (.ofList [0x5f, 0x60, 0x01, 0x80, 0x15, 0x61, 0x00, 0x0c, 0x57, 0x50, 0x60,
        0x01, 0x5b, 0x00]) .empty) { pc := 1, stack := [7] } 13 [1, 7] := by
  have hcompile : ({} : Session).compile (.connective .and (.literal .one) (.literal .one))
      = ({ labels := { next := 1 }
           instructions := [.push [1], dupTop, op .isZero, .pushLabel 0, op .jumpi, op .pop,
             .push [1], .jumpdest 0] }, .ok ()) := by
    simp only [compile, run, Term.lower, Lowering.connect, Lowering.ofValue,
      Emitter.pushLiteral_one]
    rfl
  have hlinkable : ∀ i ∈ [.push0] ++ [.push [1], dupTop, op .isZero, .pushLabel 0, op .jumpi,
      op .pop, .push [1], .jumpdest 0] ++ [op .stop], Linkable i := by
    simp only [List.cons_append, List.nil_append, List.forall_mem_cons]
    exact ⟨.push0, .push (by decide) (by decide), .op _, .op _, .pushLabel [] (some 0), .op _,
      .op _, .push (by decide) (by decide), .jumpdest [] (some 0), .op _, List.forall_mem_nil _⟩
  have hassembled : Assembled ([.push0] ++ [.push [1], dupTop, op .isZero, .pushLabel 0,
      op .jumpi, op .pop, .push [1], .jumpdest 0] ++ [op .stop]) (.ofList [0x5f, 0x60, 0x01, 0x80,
      0x15, 0x61, 0x00, 0x0c, 0x57, 0x50, 0x60, 0x01, 0x5b, 0x00]) :=
    ⟨fun i hi => (hlinkable i hi).whole, _, rfl, rfl⟩
  refine ⟨_, hcompile, rfl, ?_⟩
  exact compile_computes (.connective .and (.literal .one) (.literal .one)) hcompile rfl
    hassembled .empty (m := { pc := 1, stack := [7] }) rfl (by decide)

/-- The code of a condition jumps on its truth. In place as above, the run gets
to the jump destination of the label if the word that the expression denotes
takes the target, and otherwise behind the code, in both cases with the stack as
it was; or it ends with the access to memory past the bound that leaves the
expression without a word. -/
theorem compileBranch_branches {target : BranchTarget} (ht : t.IsExpression)
    (hcompile : s.compileBranch t target.labels.1 target.labels.2 = (after, .ok ()))
    (hcode : after.instructions = s.instructions ++ code)
    (hassembled : Assembled (pre ++ code ++ post) bytecode) {dest : Nat}
    (hlabel : LabelAt (pre ++ code ++ post) (some target.label) dest) (calldata : Bytes) {m : State}
    (hpc : m.pc = codeSize pre) (hroom : peak m.stack.length code ≤ maxStack) :
    match Semantics.eval ⟨calldata, m.memory.byteAt, m.storage⟩ t with
    | none => Exceeds (.load bytecode calldata) m
    | some v =>
      Arrives (.load bytecode calldata) m
        (if target.takes v then dest else m.pc + codeSize code) m.stack := by
  have hrun : s.run ((t.lower s.options).branch target) = (after, .ok ()) := by
    cases target <;> exact hcompile
  obtain ⟨labels, hyields⟩ := yields_of_run hrun hcode
  let x : Site := ⟨_, bytecode, hassembled, calldata, m.memory.byteAt, m.storage⟩
  have hplaced : PlacedAt x.stream m.pc code := ⟨pre, post, rfl, hpc⟩
  exact arrives_or_exceeds
    ((ht.correct x s.options).branch target hyields m.pc m.stack dest hplaced hroom hlabel)

/-- A connective of which both operands decide, compiled to a jump over a stop. -/
theorem compileBranch_branches_and :
    ∃ after, ({ labels := { next := 1 } } : Session).compileBranch
        (.connective .and (.literal .one) (.literal .one)) (some 0) none = (after, .ok ()) ∧
      Assembly.assemble ([] ++ after.instructions ++ [op .stop, .jumpdest 0])
        = .ok [0x60, 0x01, 0x15, 0x61, 0x00, 0x0d, 0x57, 0x60, 0x01, 0x61, 0x00, 0x0f, 0x57, 0x5b,
          0x00, 0x5b] ∧
      Arrives (.load (.ofList [0x60, 0x01, 0x15, 0x61, 0x00, 0x0d, 0x57, 0x60, 0x01, 0x61, 0x00,
        0x0f, 0x57, 0x5b, 0x00, 0x5b]) .empty) { stack := [7] } 15 [7] := by
  have hcompile : ({ labels := { next := 1 } } : Session).compileBranch
      (.connective .and (.literal .one) (.literal .one)) (some 0) none
      = ({ labels := { next := 2 }
           instructions := [.push [1], op .isZero, .pushLabel 1, op .jumpi, .push [1],
             .pushLabel 0, op .jumpi, .jumpdest 1] }, .ok ()) := by
    simp only [compileBranch, run, Term.lower, Lowering.connect, Lowering.ofValue,
      Emitter.pushLiteral_one]
    rfl
  have hlinkable : ∀ i ∈ [] ++ [.push [1], op .isZero, .pushLabel 1, op .jumpi, .push [1],
      .pushLabel 0, op .jumpi, .jumpdest 1] ++ [op .stop, .jumpdest 0], Linkable i := by
    simp only [List.cons_append, List.nil_append, List.forall_mem_cons]
    exact ⟨.push (by decide) (by decide), .op _, .pushLabel [] (some 1), .op _,
      .push (by decide) (by decide), .pushLabel [] (some 0), .op _, .jumpdest [] (some 1), .op _,
      .jumpdest [] (some 0), List.forall_mem_nil _⟩
  have hassembled : Assembled ([] ++ [.push [1], op .isZero, .pushLabel 1, op .jumpi, .push [1],
      .pushLabel 0, op .jumpi, .jumpdest 1] ++ [op .stop, .jumpdest 0]) (.ofList [0x60, 0x01, 0x15,
      0x61, 0x00, 0x0d, 0x57, 0x60, 0x01, 0x61, 0x00, 0x0f, 0x57, 0x5b, 0x00, 0x5b]) :=
    ⟨fun i hi => (hlinkable i hi).whole, _, rfl, rfl⟩
  have hlabel : LabelAt ([] ++ [.push [1], op .isZero, .pushLabel 1, op .jumpi, .push [1],
      .pushLabel 0, op .jumpi, .jumpdest 1] ++ [op .stop, .jumpdest 0])
      (some (BranchTarget.whenTrue 0).label) 15 := labelAt_of_positionOf? rfl
  refine ⟨_, hcompile, rfl, ?_⟩
  exact compileBranch_branches (.connective .and (.literal .one) (.literal .one)) hcompile rfl
    hassembled hlabel .empty (m := { stack := [7] }) rfl (by decide)

end Session

end EvmToolchain
