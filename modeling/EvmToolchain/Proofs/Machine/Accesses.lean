import EvmToolchain.Proofs.Machine.Safety

/-!
# EvmToolchain.Proofs.Machine.Accesses

The accesses that steps make to memory.

Four instructions have to do with memory, and each of them makes one access, which
its operands determine (`Machine.Access`). A step with an access does what the
access does (`Machine.State.step_of_access?`), and a step without one leaves memory
as it is (`Machine.State.step_keeps`). What is known of the memory of a run is read
off these two, so the cases of `executeOp` are gone through here only.
-/

namespace EvmToolchain

open Instruction

namespace Machine

/-- An access to memory. -/
inductive Access
  | load (offset : Nat)
  | store (offset value : Nat)
  | ret (offset size : Nat)
  | revert (offset size : Nat)
  deriving Repr, DecidableEq

namespace Access

/-- The position of the first byte. -/
def offset : Access → Nat
  | load offset | store offset _ | ret offset _ | revert offset _ => offset

/-- The number of bytes. -/
def size : Access → Nat
  | load _ | store _ _ => wordBytes
  | ret _ size | revert _ size => size

/-- The end of the bytes. -/
def stop (a : Access) : Nat := a.offset + a.size

/-- The number of operands that are taken off the stack. -/
def operands : Access → Nat
  | load _ => 1
  | store _ _ | ret _ _ | revert _ _ => 2

/-- The access goes past the bound. An access to no bytes does not. -/
def Refused (a : Access) : Prop := a.size ≠ 0 ∧ maxMemory < a.stop

instance (a : Access) : Decidable a.Refused := inferInstanceAs (Decidable (_ ∧ _))

/-- The memory grown for an access that is not refused. -/
def grow (a : Access) (m : Memory) : Memory := if a.size = 0 then m else Memory.grow m a.stop

/-- The effect of an access whose operands are off the stack. -/
def perform (a : Access) (next : Nat) (s : State) : Step :=
  match a with
  | load offset => s.load next offset
  | store offset value => s.store next offset value
  | ret offset size => s.finish offset size .returned
  | revert offset size => s.finish offset size .reverted

end Access

/-- The access that an opcode makes with the operands on a stack. -/
def opAccess? : Opcode → List Nat → Option Access
  | .mload, offset :: _ => some (.load offset)
  | .mstore, offset :: value :: _ => some (.store offset value)
  | .ret, offset :: size :: _ => some (.ret offset size)
  | .revert, offset :: size :: _ => some (.revert offset size)
  | _, _ => none

/-- The access that the next step makes. There is none if operands are lacking. -/
def State.access? (p : Program) (s : State) : Option Access :=
  match decode p.code s.pc with
  | .ok i =>
    match i.mnemonic with
    | .op o => opAccess? o s.stack
    | _ => none
  | .error _ => none

theorem State.access?_of_op {p : Program} {s : State} {o : Opcode} (hpc : s.pc < p.code.size)
    (h : decodeAt p.code s.pc = .op o) : s.access? p = opAccess? o s.stack := by
  rw [access?, decode_of_lt hpc, h]
  rfl

/-! ### Refused accesses -/

namespace Access

variable {a : Access}

theorem touch?_of_refused (h : a.Refused) (m : Memory) : m.touch? a.offset a.size = none := by
  rw [Memory.touch?, if_neg h.1, Memory.reserve?]
  exact if_neg (Nat.not_le.mpr h.2)

theorem touch?_of_not_refused (h : ¬ a.Refused) (m : Memory) :
    m.touch? a.offset a.size = some (a.grow m) := by
  unfold Memory.touch? grow
  split
  · rfl
  · next hsize =>
    have hstop : a.stop ≤ maxMemory := Nat.not_lt.mp fun hlt => h ⟨hsize, hlt⟩
    rw [Memory.reserve?]
    exact if_pos hstop

/-- A refused access is an exceptional halt, and has no other effect. -/
theorem perform_of_refused (h : a.Refused) (next : Nat) (s : State) :
    a.perform next s = s.fault .memoryBound := by
  cases a with
  | load offset =>
      have hnone : s.memory.touch? offset wordBytes = none := touch?_of_refused h s.memory
      simp only [perform, State.load, hnone]
  | store offset value =>
      have hnone : s.memory.reserve? (offset + wordBytes) = none := touch?_of_refused h s.memory
      simp only [perform, State.store, hnone]
  | ret offset size | revert offset size =>
      have hnone : s.memory.touch? offset size = none := touch?_of_refused h s.memory
      simp only [perform, State.finish, hnone]

end Access

/-! ### Steps with an access -/

namespace State

variable {p : Program} {s : State} {next : Nat} {a : Access}

theorem executeOp_of_access? {o : Opcode} (h : opAccess? o s.stack = some a) :
    executeOp p o next s = a.perform next { s with stack := s.stack.drop a.operands } := by
  unfold opAccess? at h
  split at h
  case h_5 => cases h
  all_goals
    next hstack =>
    obtain rfl := Option.some.inj h
    simp only [executeOp, withTwo, withOne, hstack]
    rfl

/-- A step with an access takes the operands and does what the access does. -/
theorem step_of_access? (h : s.access? p = some a) :
    ∃ next, step p s
      = a.perform next { s with stack := s.stack.drop a.operands, steps := s.steps + 1 } := by
  unfold access? at h
  split at h
  · next i hdecode =>
    split at h
    · next o ho =>
      refine ⟨s.pc + i.length, ?_⟩
      simp only [step, hdecode, execute, ho]
      exact executeOp_of_access? (s := { s with steps := s.steps + 1 }) h
    · cases h
  · cases h

end State

/-! ### Steps without an access -/

theorem Step.Ensures.imp {P Q : State → Prop} {step : Step} (h : step.Ensures P)
    (hPQ : ∀ t, P t → Q t) : step.Ensures Q := by
  cases step with
  | next t | halt _ t => exact hPQ t h
  | error _ => exact h

/-- The step does not fail, and leaves this memory. -/
abbrev Step.Keeps (m : Memory) (step : Step) : Prop := step.Ensures fun t => t.memory = m

namespace State

variable {p : Program} {s : State} {next : Nat}

theorem push_keeps (value : Nat) : (s.push next value).Keeps s.memory := by
  unfold push
  split <;> rfl

theorem jump_keeps (dest : Nat) : (s.jump p dest).Keeps s.memory := by
  unfold jump
  split <;> rfl

theorem withOne_keeps {k : Nat → State → Step}
    (hk : ∀ a rest, s.stack = a :: rest → (k a { s with stack := rest }).Keeps s.memory) :
    (s.withOne k).Keeps s.memory := by
  unfold withOne
  split
  · next a rest hstack => exact hk a rest hstack
  · rfl

theorem withTwo_keeps {k : Nat → Nat → State → Step}
    (hk : ∀ a b rest, s.stack = a :: b :: rest →
      (k a b { s with stack := rest }).Keeps s.memory) :
    (s.withTwo k).Keeps s.memory :=
  withOne_keeps fun a _ hstack =>
    withOne_keeps (s := { s with stack := _ }) fun b rest hrest =>
      hk a b rest (hstack.trans (congrArg _ hrest))

theorem executeOp_keeps {o : Opcode} (h : opAccess? o s.stack = none) :
    (executeOp p o next s).Keeps s.memory := by
  cases o with
  | stop | invalid => rfl
  -- with its operands, each of these would make an access
  | mload =>
      simp only [executeOp]
      refine withOne_keeps fun _ _ hstack => ?_
      rw [hstack] at h
      cases h
  | mstore | ret | revert =>
      refine withTwo_keeps fun _ _ _ hstack => ?_
      rw [hstack] at h
      cases h
  | dup n =>
      simp only [executeOp]
      split
      · exact push_keeps _
      · rfl
  | swap n =>
      simp only [executeOp]
      split <;> rfl
  | pop =>
      simp only [executeOp]
      exact withOne_keeps fun _ _ _ => rfl
  | sload | callDataLoad =>
      simp only [executeOp]
      exact withOne_keeps fun _ rest _ => push_keeps (s := { s with stack := rest }) _
  | sstore => exact withTwo_keeps fun _ _ _ _ => rfl
  | callDataSize => exact push_keeps _
  | jump =>
      simp only [executeOp]
      exact withOne_keeps fun dest rest _ => jump_keeps (s := { s with stack := rest }) dest
  | jumpi =>
      refine withTwo_keeps fun dest cond rest _ => ?_
      split
      · rfl
      · exact jump_keeps (s := { s with stack := rest }) dest
  -- what is left computes a word from its operands, or is not supported
  | _ =>
      simp only [executeOp]
      split
      · exact withTwo_keeps fun _ _ rest _ => push_keeps (s := { s with stack := rest }) _
      · exact withOne_keeps fun _ rest _ => push_keeps (s := { s with stack := rest }) _
      · rfl

/-- A step without an access leaves memory as it is. -/
theorem step_keeps (hpc : s.pc < p.code.size) (h : s.access? p = none) :
    (step p s).Keeps s.memory := by
  rw [step_of_lt hpc]
  rw [access?, decode_of_lt hpc] at h
  unfold execute
  dsimp only at h ⊢
  split
  · exact push_keeps (s := { s with steps := s.steps + 1 }) _
  · exact push_keeps (s := { s with steps := s.steps + 1 }) _
  · rfl
  · next o ho =>
    rw [ho] at h
    exact executeOp_keeps (s := { s with steps := s.steps + 1 }) h
  · rfl

end State

end Machine

end EvmToolchain
