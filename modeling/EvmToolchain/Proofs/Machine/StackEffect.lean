import EvmToolchain.Proofs.Analysis.Effect
import EvmToolchain.Proofs.Machine.Steps

/-!
# EvmToolchain.Proofs.Machine.StackEffect

What a step that goes on has done to the stack.

An instruction that was read from code either performs its stack action and
goes on at the next instruction, or is a jump that is taken (`execute_next`).
The words on the stack stay words. This is the only place where the cases of
`executeOp` are gone through for what they do to the stack.
-/

namespace EvmToolchain

open Instruction

/-- All items of the stack are words. -/
def Machine.AllWords (stack : List Nat) : Prop := ∀ v ∈ stack, v < Word.modulus

namespace Machine

theorem allWords_nil : AllWords [] := List.forall_mem_nil _

theorem allWords_cons {v : Nat} {stack : List Nat} :
    AllWords (v :: stack) ↔ v < Word.modulus ∧ AllWords stack := List.forall_mem_cons

theorem allWords_append {a b : List Nat} : AllWords (a ++ b) ↔ AllWords a ∧ AllWords b :=
  List.forall_mem_append

theorem allWords_singleton (v : Nat) : AllWords [Word.wrap v] :=
  allWords_cons.mpr ⟨Word.wrap_lt v, allWords_nil⟩

theorem AllWords.set {stack : List Nat} (hs : AllWords stack) {v : Nat} (hv : v < Word.modulus)
    (n : Nat) : AllWords (stack.set n v) := by
  intro w hw
  rcases List.mem_or_eq_of_mem_set hw with hw | rfl
  · exact hs w hw
  · exact hv

end Machine

/-- An action turns a stack into another one. -/
inductive StackAction.Performs : StackAction → List Nat → List Nat → Prop
  | push {v : Nat} {stack : List Nat} : Performs (.push (.known v)) stack (v :: stack)
  | copy {n v : Nat} {stack : List Nat} :
      stack[n]? = some v → Performs (.copy (n + 1)) stack (v :: stack)
  | exchange {n a b : Nat} {stack : List Nat} :
      stack[0]? = some a → stack[n + 1]? = some b →
      Performs (.exchange (n + 1)) stack ((stack.set 0 b).set (n + 1) a)
  | replace {effect : StackEffect} {taken results rest : List Nat} :
      taken.length = effect.pops → results.length = effect.pushes →
      Performs (.replace effect) (taken ++ rest) (results ++ rest)

namespace Machine

/-- A jump instruction that is taken from a stack, to a destination. -/
inductive Takes : Instruction → List Nat → Nat → List Nat → Prop
  | jump {dest : Nat} {rest : List Nat} : Takes (.op .jump) (dest :: rest) dest rest
  | jumpi {dest cond : Nat} {rest : List Nat} :
      cond ≠ 0 → Takes (.op .jumpi) (dest :: cond :: rest) dest rest

theorem Takes.canBranch {i : Instruction} {items rest : List Nat} {dest : Nat}
    (h : Takes i items dest rest) : i.canBranch = true := by
  cases h <;> rfl

/-- A jump leaves only words. -/
theorem Takes.allWords {i : Instruction} {items rest : List Nat} {dest : Nat}
    (h : Takes i items dest rest) (hs : AllWords items) : AllWords rest := by
  cases h with
  | jump => exact (allWords_cons.mp hs).2
  | jumpi _ => exact (allWords_cons.mp (allWords_cons.mp hs).2).2

theorem Takes.getElem?_zero {i : Instruction} {items rest : List Nat} {dest : Nat}
    (h : Takes i items dest rest) : items[0]? = some dest := by
  cases h <;> rfl

namespace State

/-! ### Steps that go on -/

variable {s t : State} {next value offset : Nat} {k : Nat → State → Step}

theorem push_next (h : s.push next value = .next t) :
    t = { s with stack := Word.wrap value :: s.stack, pc := next } := by
  unfold push at h
  split at h
  · exact (Step.next.inj h).symm
  · cases h

theorem jump_next {p : Program} {dest : Nat} (h : s.jump p dest = .next t) :
    p.isJumpdest dest = true ∧ t = { s with pc := dest } := by
  unfold jump at h
  split at h
  · next hdest => exact ⟨hdest, (Step.next.inj h).symm⟩
  · cases h

theorem withOne_next (h : s.withOne k = .next t) :
    ∃ a rest, s.stack = a :: rest ∧ k a { s with stack := rest } = .next t := by
  unfold withOne at h
  split at h
  · next a rest hstack => exact ⟨a, rest, hstack, h⟩
  · cases h

theorem withTwo_next {k : Nat → Nat → State → Step} (h : s.withTwo k = .next t) :
    ∃ a b rest, s.stack = a :: b :: rest ∧ k a b { s with stack := rest } = .next t := by
  obtain ⟨a, rest, ha, h⟩ := withOne_next h
  obtain ⟨b, rest', hb, h⟩ := withOne_next h
  exact ⟨a, b, rest', by rw [ha]; exact congrArg _ hb, h⟩

theorem finish_ne_next {size : Nat} {ending : Bytes → Ending} :
    s.finish offset size ending ≠ .next t := by
  unfold finish
  split <;> exact Step.noConfusion

theorem load_next (h : s.load next offset = .next t) :
    ∃ v, t.stack = Word.wrap v :: s.stack ∧ t.pc = next := by
  unfold load at h
  split at h
  · exact ⟨_, by rw [push_next h], by rw [push_next h]⟩
  · cases h

theorem store_next (h : s.store next offset value = .next t) :
    t.stack = s.stack ∧ t.pc = next := by
  unfold store at h
  split at h
  · cases h
  · split at h
    · obtain rfl := Step.next.inj h
      exact ⟨rfl, rfl⟩
    · cases h

end State

/-- The step takes some items off the stack, puts words there instead, and goes
on at `next`. -/
def Replaces (effect : StackEffect) (next : Nat) (s t : State) : Prop :=
  t.pc = next ∧ ∃ taken results rest, s.stack = taken ++ rest ∧ t.stack = results ++ rest ∧
    taken.length = effect.pops ∧ results.length = effect.pushes ∧ AllWords results

theorem Replaces.of_drop {s t : State} {effect : StackEffect} {next : Nat} (taken : List Nat)
    (hstack : s.stack = taken ++ t.stack) (hpc : t.pc = next) (hpops : taken.length = effect.pops)
    (hpushes : effect.pushes = 0) : Replaces effect next s t :=
  ⟨hpc, taken, [], t.stack, hstack, rfl, hpops, hpushes.symm, allWords_nil⟩

theorem Replaces.of_push {s t : State} {next value : Nat} (h : s.push next value = .next t) :
    Replaces ⟨0, 1⟩ next s t := by
  rw [State.push_next h]
  exact ⟨rfl, [], [_], s.stack, rfl, rfl, rfl, rfl, allWords_singleton value⟩

theorem Replaces.of_unary {s t : State} {next : Nat} {f : Nat → State → Nat}
    (h : (s.withOne fun a s => s.push next (f a s)) = .next t) : Replaces ⟨1, 1⟩ next s t := by
  obtain ⟨a, rest, hstack, h⟩ := State.withOne_next h
  rw [State.push_next h]
  exact ⟨rfl, [a], [_], rest, hstack, rfl, rfl, rfl, allWords_singleton _⟩

theorem Replaces.of_binary {s t : State} {next : Nat} {f : Nat → Nat → Nat}
    (h : (s.withTwo fun a b s => s.push next (f a b)) = .next t) : Replaces ⟨2, 1⟩ next s t := by
  obtain ⟨a, b, rest, hstack, h⟩ := State.withTwo_next h
  rw [State.push_next h]
  exact ⟨rfl, [a, b], [_], rest, hstack, rfl, rfl, rfl, allWords_singleton _⟩

theorem binary?_arity {o : Opcode} {f : Nat → Nat → Nat} (h : binary? o = some f) :
    o.pops = 2 ∧ o.pushes = 1 := by
  unfold binary? at h
  split at h
  all_goals first | exact ⟨rfl, rfl⟩ | cases h

theorem unary?_arity {o : Opcode} {f : Nat → Nat} (h : unary? o = some f) :
    o.pops = 1 ∧ o.pushes = 1 := by
  unfold unary? at h
  split at h
  all_goals first | exact ⟨rfl, rfl⟩ | cases h

/-- The opcodes without an effect of their own either compute a word from their
operands, or are not supported. -/
theorem Replaces.of_operation {o : Opcode} {s t : State} {next : Nat}
    (h : (match binary? o, unary? o with
      | some f, _ => s.withTwo fun a b s => s.push next (f a b)
      | none, some f => s.withOne fun a s => s.push next (f a)
      | none, none => s.fault (.unsupported o.name)) = .next t) :
    Replaces ⟨o.pops, o.pushes⟩ next s t := by
  cases hb : binary? o with
  | some f =>
      simp only [hb] at h
      obtain ⟨hpops, hpushes⟩ := binary?_arity hb
      rw [hpops, hpushes]
      exact .of_binary h
  | none =>
      cases hu : unary? o with
      | some f =>
          simp only [hb, hu] at h
          obtain ⟨hpops, hpushes⟩ := unary?_arity hu
          rw [hpops, hpushes]
          exact .of_unary h
      | none =>
          simp only [hb, hu] at h
          cases h

/-- How a step on an instruction goes on: it performs the action of the
instruction and falls through, or takes a jump. -/
inductive Continues (p : Program) (i : Instruction) (next : Nat) (s t : State) : Prop
  | falls {action : StackAction} :
      i.isTerminator = false → t.pc = next → StackAction.ofInstruction i = .ok action →
      action.Performs s.stack t.stack → AllWords t.stack → Continues p i next s t
  | jumps :
      Takes i s.stack t.pc t.stack → p.isJumpdest t.pc = true → AllWords t.stack →
      Continues p i next s t

variable {p : Program} {s t : State} {next : Nat}

/-- A step that goes on leaves only words. -/
theorem Continues.allWords {i : Instruction} (h : Continues p i next s t) : AllWords t.stack := by
  cases h <;> assumption

theorem Continues.of_replaces {i : Instruction} {effect : StackEffect}
    (hterm : i.isTerminator = false)
    (haction : StackAction.ofInstruction i = .ok (.replace effect)) (hs : AllWords s.stack)
    (h : Replaces effect next s t) : Continues p i next s t := by
  obtain ⟨hpc, taken, results, rest, hstack, hstack', htaken, hresults, hwords⟩ := h
  refine .falls hterm hpc haction ?_ ?_
  · rw [hstack, hstack']
    exact .replace htaken hresults
  · rw [hstack] at hs
    rw [hstack']
    exact allWords_append.mpr ⟨hwords, (allWords_append.mp hs).2⟩

theorem Continues.of_push {i : Instruction} {action : StackAction} {v : Nat}
    (hterm : i.isTerminator = false) (haction : StackAction.ofInstruction i = .ok action)
    (hperforms : action.Performs s.stack (v :: s.stack)) (hv : v < Word.modulus)
    (hs : AllWords s.stack) (h : s.push next v = .next t) : Continues p i next s t := by
  rw [State.push_next h, Word.wrap_of_lt hv]
  exact .falls hterm rfl haction hperforms (allWords_cons.mpr ⟨hv, hs⟩)

theorem Continues.of_jump {i : Instruction} {dest : Nat} {rest : List Nat}
    (htakes : Takes i s.stack dest rest) (hs : AllWords s.stack)
    (h : State.jump { s with stack := rest } p dest = .next t) : Continues p i next s t := by
  obtain ⟨hdest, rfl⟩ := State.jump_next h
  exact .jumps htakes hdest (htakes.allWords hs)

theorem executeOp_next {o : Opcode} (hs : AllWords s.stack)
    (h : executeOp p o next s = .next t) : Continues p (.op o) next s t := by
  cases o with
  | stop => cases h
  | invalid => cases h
  | ret =>
      simp only [executeOp] at h
      obtain ⟨_, _, _, _, h⟩ := State.withTwo_next h
      exact absurd h State.finish_ne_next
  | revert =>
      simp only [executeOp] at h
      obtain ⟨_, _, _, _, h⟩ := State.withTwo_next h
      exact absurd h State.finish_ne_next
  | dup n =>
      simp only [executeOp] at h
      split at h
      · next v hv => exact .of_push rfl rfl (.copy hv) (hs v (List.mem_of_getElem? hv)) hs h
      · cases h
  | swap n =>
      simp only [executeOp] at h
      split at h
      · next a b ha hb =>
        obtain rfl := Step.next.inj h
        exact .falls rfl rfl rfl (.exchange ha hb)
          ((hs.set (hs b (List.mem_of_getElem? hb)) 0).set (hs a (List.mem_of_getElem? ha)) _)
      · cases h
  | pop =>
      simp only [executeOp] at h
      obtain ⟨a, rest, hstack, h⟩ := State.withOne_next h
      obtain rfl := Step.next.inj h
      exact .of_replaces rfl rfl hs (.of_drop [a] hstack rfl rfl rfl)
  | mload =>
      simp only [executeOp] at h
      obtain ⟨a, rest, hstack, h⟩ := State.withOne_next h
      obtain ⟨v, hstack', hpc⟩ := State.load_next h
      exact .of_replaces rfl rfl hs
        ⟨hpc, [a], [_], rest, hstack, hstack', rfl, rfl, allWords_singleton v⟩
  | mstore =>
      simp only [executeOp] at h
      obtain ⟨a, b, rest, hstack, h⟩ := State.withTwo_next h
      obtain ⟨hstack', hpc⟩ := State.store_next h
      refine .of_replaces rfl rfl hs (.of_drop [a, b] ?_ hpc rfl rfl)
      rw [hstack, hstack']
      rfl
  | sload =>
      simp only [executeOp] at h
      exact .of_replaces rfl rfl hs (.of_unary h)
  | sstore =>
      simp only [executeOp] at h
      obtain ⟨a, b, rest, hstack, h⟩ := State.withTwo_next h
      obtain rfl := Step.next.inj h
      exact .of_replaces rfl rfl hs (.of_drop [a, b] hstack rfl rfl rfl)
  | callDataLoad =>
      simp only [executeOp] at h
      exact .of_replaces rfl rfl hs (.of_unary h)
  | callDataSize => exact .of_replaces rfl rfl hs (.of_push h)
  | jump =>
      simp only [executeOp] at h
      obtain ⟨dest, rest, hstack, h⟩ := State.withOne_next h
      exact .of_jump (hstack ▸ .jump) hs h
  | jumpi =>
      simp only [executeOp] at h
      obtain ⟨dest, cond, rest, hstack, h⟩ := State.withTwo_next h
      split at h
      · obtain rfl := Step.next.inj h
        exact .of_replaces rfl rfl hs (.of_drop [dest, cond] hstack rfl rfl rfl)
      · next hcond => exact .of_jump (hstack ▸ .jumpi hcond) hs h
  -- what is left computes a word from its operands, or is not supported
  | _ => exact .of_replaces rfl rfl hs (.of_operation h)

theorem execute_next {i : Instruction} (hi : i.Readable) (hs : AllWords s.stack)
    (h : execute p i s = .next t) : Continues p i (s.pc + i.length) s t := by
  cases hi with
  | @push data _ hlen =>
      have hv : BigEndian.toNat data < Word.modulus :=
        Nat.lt_of_lt_of_le (BigEndian.toNat_lt data) (BigEndian.capacity_mono hlen)
      exact .of_push rfl rfl .push hv hs h
  | push0 => exact .of_push rfl rfl .push Word.modulus_pos hs h
  | jumpdest label =>
      obtain rfl := Step.next.inj h
      exact .of_replaces rfl rfl hs (.of_drop [] rfl rfl rfl rfl)
  | op o => exact executeOp_next hs h

end Machine

end EvmToolchain
