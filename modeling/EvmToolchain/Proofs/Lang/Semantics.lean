import EvmToolchain.Lang.Term
import EvmToolchain.Machine.State

/-!
# EvmToolchain.Proofs.Lang.Semantics

The meaning of programs, without code.

A program is a list of statements, and runs over a statement index, a memory
and a storage. Expressions denote words of 256 bits and have no effects; all
that can go wrong in one is an access to memory past the bound, which traps.
Connectives evaluate their right operand only if the left one does not decide
the outcome, and denote the operand that does.

Statements are executed one after the other (`step`), which is total: a program
either halts or goes on forever (`halts_or_diverges`).
-/

namespace EvmToolchain

/-! ### Well-formed programs -/

namespace Term

/-- Expressions: literals, operators, and indices into a region. -/
inductive IsExpression : Term → Prop
  | literal (l : Literal) : IsExpression (.literal l)
  | arithmetic (op : Arithmetic) {lhs rhs : Term} :
      lhs.IsExpression → rhs.IsExpression → IsExpression (.arithmetic op lhs rhs)
  | connective (op : Connective) {lhs rhs : Term} :
      lhs.IsExpression → rhs.IsExpression → IsExpression (.connective op lhs rhs)
  | access (r : Region) {index : Term} :
      index.IsExpression → IsExpression (.access (.region r) index)

/-- Statements, whose parts are expressions. Memory and storage can be assigned
to. -/
inductive IsStatement : Term → Prop
  | assert {condition : Term} : condition.IsExpression → IsStatement (.assert condition)
  | assignMemory {index value : Term} : index.IsExpression → value.IsExpression →
      IsStatement (.assign (.access (.region .memory) index) value)
  | assignStorage {index value : Term} : index.IsExpression → value.IsExpression →
      IsStatement (.assign (.access (.region .storage) index) value)
  | fail : IsStatement .fail
  | goto (name : String) : IsStatement (.goto name)
  | ifGoto {condition : Term} (name : String) : condition.IsExpression →
      IsStatement (.ifGoto condition name)
  | label (name : String) : IsStatement (.label name)
  | revert {values : List Term} : (∀ t ∈ values, t.IsExpression) → IsStatement (.revert values)
  | succeed {values : List Term} : (∀ t ∈ values, t.IsExpression) → IsStatement (.succeed values)
  | stop : IsStatement .stop

end Term

namespace Semantics

/-- A word of 256 bits. -/
abbrev Word := BitVec 256

/-- The word of a truth value. -/
def truth (b : Bool) : Word := if b then 1 else 0

/-- What an operator does to words, in wrapping arithmetic. Dividing by zero
gives zero. -/
def arithmetic : Arithmetic → Word → Word → Word
  | .add, a, b => a + b
  | .subtract, a, b => a - b
  | .multiply, a, b => a * b
  | .divide, a, b => if b = 0 then 0 else a / b
  | .remainder, a, b => if b = 0 then 0 else a % b
  | .equals, a, b => truth (a = b)
  | .notEquals, a, b => truth (a ≠ b)
  | .lessThan, a, b => truth (a < b)
  | .lessOrEquals, a, b => truth (a ≤ b)
  | .greaterThan, a, b => truth (b < a)
  | .greaterOrEquals, a, b => truth (b ≤ a)

/-- The big-endian word at an offset. -/
def readWord (bytes : Nat → UInt8) (offset : Nat) : Word :=
  BitVec.ofNat 256 (BigEndian.toNat ((List.range wordBytes).map fun k => bytes (offset + k)))

/-- The bytes with a word written at an offset. -/
def writeWord (bytes : Nat → UInt8) (offset : Nat) (v : Word) : Nat → UInt8 := fun i =>
  if offset ≤ i ∧ i < offset + wordBytes then
    (BigEndian.ofNat wordBytes v.toNat).getD (i - offset) 0
  else bytes i

/-- What expressions read. -/
structure Env where
  calldata : Bytes
  /-- The memory, which is zero where nothing has been written. -/
  memory : Nat → UInt8
  storage : Storage

/-- The word at an index of a region; none past the bound of the memory. -/
def Env.read (env : Env) : Region → Word → Option Word
  | .memory, i =>
    if i.toNat + wordBytes ≤ maxMemory then some (readWord env.memory i.toNat) else none
  | .storage, i => some (BitVec.ofInt 256 (env.storage.getD i.toNat 0))
  | .callData, i => some (readWord env.calldata.byteAt i.toNat)

/-- Whether the left operand of a connective decides the outcome. -/
def decides : Connective → Word → Bool
  | .and, v => v = 0
  | .or, v => v ≠ 0

/-- The word that an expression denotes; none if its evaluation traps. -/
def eval (env : Env) : Term → Option Word
  | .literal l => some (BitVec.ofNat 256 l.value)
  | .arithmetic op lhs rhs =>
    (eval env rhs).bind fun b => (eval env lhs).bind fun a => some (arithmetic op a b)
  | .connective op lhs rhs =>
    (eval env lhs).bind fun a => if decides op a then some a else eval env rhs
  | .access (.region r) index => (eval env index).bind (env.read r)
  | _ => none

/-! ### Runs of a program -/

/-- A program with its call data. -/
structure Program where
  statements : List Term
  /-- The distance in memory between values that are handed back. -/
  slotSize : Nat
  calldata : Bytes

/-- The state of a run, before the statement of an index. -/
structure State where
  index : Nat := 0
  memory : Nat → UInt8 := fun _ => 0
  storage : Storage

/-- How a run ends. -/
inductive Ending
  | stopped
  | returned (data : List UInt8)
  | reverted (data : List UInt8)
  | trapped
  deriving DecidableEq

/-- A run that has ended. -/
structure Outcome where
  ending : Ending
  storage : Storage

/-- The effect of a statement. -/
inductive Step
  | next (s : State)
  | halt (o : Outcome)

namespace State

/-- The run ends. -/
def halt (s : State) (e : Ending) : Step := .halt ⟨e, s.storage⟩

/-- The run goes on with the next statement. -/
def advance (s : State) : Step := .next { s with index := s.index + 1 }

/-- The run goes on with a result, and traps if there is none. -/
def orTrap {α : Type} (s : State) (result : Option α) (k : α → Step) : Step :=
  match result with
  | some v => k v
  | none => s.halt .trapped

end State

namespace Program

variable (p : Program)

/-- What expressions read in a state. -/
def env (s : State) : Env := ⟨p.calldata, s.memory, s.storage⟩

/-- The index of the statement that carries the label of a name. -/
def labelIndex? (name : String) : Option Nat :=
  p.statements.findIdx? fun
    | .label n => n == name
    | _ => false

/-- The run goes on at a label. -/
def goto (s : State) (name : String) : Step :=
  match p.labelIndex? name with
  | some index => .next { s with index }
  | none => s.halt .trapped

/-- The memory after values have been stored in slots, the first in the given
one. Each value is computed when those before it have been stored. -/
def storeAll (storage : Storage) (slot : Nat) (memory : Nat → UInt8) :
    List Term → Option (Nat → UInt8)
  | [] => some memory
  | t :: rest =>
    (eval ⟨p.calldata, memory, storage⟩ t).bind fun v =>
      if slot * p.slotSize + wordBytes ≤ maxMemory then
        storeAll storage (slot + 1) (writeWord memory (slot * p.slotSize) v) rest
      else none

/-- The run ends and hands back the slots of some values. -/
def handBack (s : State) (values : List Term) (ending : List UInt8 → Ending) : Step :=
  s.orTrap (p.storeAll s.storage 0 s.memory values) fun memory =>
    if values.length * p.slotSize ≤ maxMemory then
      s.halt (ending ((List.range (values.length * p.slotSize)).map memory))
    else s.halt .trapped

/-- The effect of one statement. -/
def execute (s : State) : Term → Step
  | .assert condition =>
    s.orTrap (eval (p.env s) condition) fun v => if v = 0 then s.halt .trapped else s.advance
  | .assign (.access (.region .memory) index) value =>
    s.orTrap (eval (p.env s) value) fun v =>
      s.orTrap (eval (p.env s) index) fun i =>
        if i.toNat + wordBytes ≤ maxMemory then
          { s with memory := writeWord s.memory i.toNat v }.advance
        else s.halt .trapped
  | .assign (.access (.region .storage) index) value =>
    s.orTrap (eval (p.env s) value) fun v =>
      s.orTrap (eval (p.env s) index) fun i =>
        { s with storage := s.storage.insert i.toNat v.toNat }.advance
  | .goto name => p.goto s name
  | .ifGoto condition name =>
    s.orTrap (eval (p.env s) condition) fun v => if v = 0 then s.advance else p.goto s name
  | .label _ => s.advance
  | .revert values => p.handBack s values .reverted
  | .succeed [] => s.halt .stopped
  | .succeed values => p.handBack s values .returned
  | .stop => s.halt .stopped
  | _ => s.halt .trapped

/-- One step of a run. Past the last statement the run stops. -/
def step (s : State) : Step :=
  match p.statements[s.index]? with
  | some t => p.execute s t
  | none => s.halt .stopped

/-- The run gets from one state to another in a number of steps. -/
inductive Steps : Nat → State → State → Prop
  | refl (s : State) : Steps 0 s s
  | head {n : Nat} {s t u : State} : p.step s = .next t → Steps n t u → Steps (n + 1) s u

/-- The run from a state ends in an outcome. -/
def Halts (s : State) (o : Outcome) : Prop := ∃ n t, p.Steps n s t ∧ p.step t = .halt o

/-- The run from a state goes on forever. -/
def Diverges (s : State) : Prop := ∀ n, ∃ t, p.Steps n s t

variable {p}

/-- A label that a statement carries is found at such a statement. -/
theorem exists_labelIndex? {name : String} (h : .label name ∈ p.statements) :
    ∃ i, p.labelIndex? name = some i ∧ p.statements[i]? = some (.label name) := by
  have hsome : (p.labelIndex? name).isSome := by
    rw [labelIndex?, List.findIdx?_isSome, List.any_eq_true]
    exact ⟨_, h, beq_self_eq_true name⟩
  obtain ⟨i, hi⟩ := Option.isSome_iff_exists.mp hsome
  obtain ⟨hlt, hmatch, -⟩ := List.findIdx?_eq_some_iff_getElem.mp hi
  refine ⟨i, hi, ?_⟩
  rw [List.getElem?_eq_getElem hlt]
  split at hmatch
  · next n hn => rw [hn, eq_of_beq hmatch]
  · cases hmatch

theorem Steps.snoc {n : Nat} {s t u : State} (h : p.Steps n s t) (hstep : p.step t = .next u) :
    p.Steps (n + 1) s u := by
  induction h with
  | refl => exact .head hstep (.refl u)
  | head hfirst _ ih => exact .head hfirst (ih hstep)

/-- Every run either halts or goes on forever. -/
theorem halts_or_diverges (s : State) : (∃ o, p.Halts s o) ∨ p.Diverges s := by
  by_cases h : ∃ o, p.Halts s o
  · exact Or.inl h
  · refine Or.inr fun n => ?_
    induction n with
    | zero => exact ⟨s, .refl s⟩
    | succ n ih =>
        obtain ⟨t, hsteps⟩ := ih
        cases hstep : p.step t with
        | next u => exact ⟨u, hsteps.snoc hstep⟩
        | halt o => exact absurd ⟨o, n, t, hsteps, hstep⟩ h

end Program

end Semantics

end EvmToolchain
