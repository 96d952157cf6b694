import EvmToolchain.Proofs.Analysis.Soundness

/-!
# EvmToolchain.Proofs.Analysis.Description

A single step of the machine, seen by the abstract instructions.

A stack state describes a concrete stack if it knows nothing wrong about it
(`StackState.Describes`). That is the order of states, with the stack read as the
state that knows all of it (`describes_iff`), so the step that was gone through
for whole runs (`Machine.execute_next`) gives the local statement too: every
state that describes the stack before a step describes the stack after it, once
the instruction has been applied to the state. Nothing is asked of where the
state comes from.
-/

namespace EvmToolchain

open Instruction

namespace StackState

/-- The state describes a concrete stack: it is not bottom, is no taller than the
stack, and every slot that it knows is the word at the same depth. -/
def Describes : StackState → List Nat → Prop
  | bottom, _ => False
  | stack slots, items =>
      slots.length ≤ items.length ∧
        ∀ (n : Nat) (v : Int), slots[n]? = some (.known v) → ∃ w : Nat, items[n]? = some w ∧ w = v

theorem describes_iff {d : StackState} {items : List Nat} :
    d.Describes items ↔ ofStack items ≤ d := by
  cases d with
  | bottom => exact ⟨False.elim, not_stack_le_bottom _⟩
  | stack slots =>
      constructor
      · rintro ⟨hlen, hknown⟩
        refine ofStack_le_iff.mpr ⟨hlen, fun n slot hn => ?_⟩
        cases slot with
        | unknown => exact Or.inl rfl
        | known v =>
            obtain ⟨w, hw, hwv⟩ := hknown n v hn
            exact Or.inr ⟨w, hw, congrArg Slot.known hwv⟩
      · exact fun h => ⟨(ofStack_le_iff.mp h).1, fun n v hn => known_of_ofStack_le h hn⟩

end StackState

namespace Machine

/-- The instruction is a jump that is taken from the stack: any `JUMP`, and a
`JUMPI` whose condition is not zero. -/
def TakesJump (i : Instruction) (items : List Nat) : Prop :=
  i = .op .jump ∨ i = .op .jumpi ∧ ∃ cond, items[1]? = some cond ∧ cond ≠ 0

theorem Takes.takesJump {i : Instruction} {items rest : List Nat} {dest : Nat}
    (h : Takes i items dest rest) : TakesJump i items := by
  cases h with
  | jump => exact Or.inl rfl
  | @jumpi _ cond _ hcond => exact Or.inr ⟨rfl, cond, rfl, hcond⟩

/-- A jump that is taken goes to the top of the stack, without its operands. -/
theorem takes_of_execute {p : Program} {i : Instruction} {s t : State}
    (hjump : TakesJump i s.stack) (h : execute p i s = .next t) :
    Takes i s.stack t.pc t.stack := by
  rcases hjump with rfl | ⟨rfl, cond, hcond, hne⟩
  · simp only [execute, executeOp] at h
    obtain ⟨dest, rest, hstack, h⟩ := State.withOne_next h
    obtain ⟨-, rfl⟩ := State.jump_next h
    exact hstack ▸ .jump
  · simp only [execute, executeOp] at h
    obtain ⟨dest, cond', rest, hstack, h⟩ := State.withTwo_next h
    have hcond' : cond' = cond := by
      rw [hstack] at hcond
      exact Option.some.inj hcond
    rw [if_neg (hcond' ▸ hne)] at h
    obtain ⟨-, rfl⟩ := State.jump_next h
    exact hstack ▸ .jumpi (hcond' ▸ hne)

/-- Local soundness of the abstract instructions. Whatever state describes the
stack before a step that goes on, the state along a branch describes the stack
after a jump that is taken, and the state after a transfer describes it after
any other instruction. The stack still holds words, so the next step can be
described likewise. -/
theorem step_describes {code calldata : Bytes} {s t : State} {d : StackState}
    (hpc : s.pc < code.size) (hwords : AllWords s.stack) (hd : d.Describes s.stack)
    (hstep : step (.load code calldata) s = .next t) :
    ∃ i, decode code s.pc = .ok i ∧ AllWords t.stack ∧
      (TakesJump i s.stack → s.stack[0]? = some t.pc ∧
        ∃ d', d.branch i = .ok d' ∧ d'.Describes t.stack) ∧
      (¬ TakesJump i s.stack → t.pc = s.pc + i.length ∧
        ∃ d', d.transfer i = .ok d' ∧ d'.Describes t.stack) := by
  have hi := readable_decodeAt code s.pc
  have hd := StackState.describes_iff.mp hd
  have hexec : execute (.load code calldata) (decodeAt code s.pc)
      { s with steps := s.steps + 1 } = .next t := (step_of_lt hpc).symm.trans hstep
  have hnext := execute_next (s := { s with steps := s.steps + 1 }) hi hwords hexec
  refine ⟨_, decode_of_lt hpc, hnext.allWords, fun hjump => ?_, fun hjump => ?_⟩
  · have htakes := takes_of_execute (s := { s with steps := s.steps + 1 }) hjump hexec
    refine ⟨htakes.getElem?_zero, _, StackState.branch_eq hi d, StackState.describes_iff.mpr ?_⟩
    rw [← StackState.ofStack_branched htakes]
    exact StackState.branched_mono hi hd
  · cases hnext with
    | jumps htakes => exact absurd htakes.takesJump hjump
    | falls hterm hpc' haction hperforms =>
        refine ⟨hpc', _, StackState.transfer_eq hi d, StackState.describes_iff.mpr ?_⟩
        exact (StackState.ofStack_le_after hi hterm haction hperforms).trans
          (StackState.after_mono hi hd)

/-- An exchange with a word below the slots that the state tracks. -/
theorem step_describes_swap :
    (StackState.stack [.known 4]).Describes [4, 2, 7] ∧
      step (.load ⟨#[0x91]⟩ ⟨#[]⟩) { stack := [4, 2, 7] } = .next ⟨1, [7, 2, 4], .empty, ∅, 1⟩ ∧
      ∃ d', (StackState.stack [.known 4]).transfer (.op (.swap 1)) = .ok d' ∧
        d'.Describes [7, 2, 4] := by
  have hinsn : decodeAt ⟨#[0x91]⟩ 0 = .op (.swap 1) := decodeAt_op rfl
  have hwords : ∀ v ∈ [4, 2, 7], v < Word.modulus := by decide
  have hd : (StackState.stack [.known 4]).Describes [4, 2, 7] := by
    refine ⟨by decide, fun n v hn => ?_⟩
    cases n with
    | zero => exact ⟨4, rfl, Slot.known.inj (Option.some.inj hn)⟩
    | succ n => cases hn
  have hstep : step (.load ⟨#[0x91]⟩ ⟨#[]⟩) { stack := [4, 2, 7] }
      = .next ⟨1, [7, 2, 4], .empty, ∅, 1⟩ := by
    rw [step_of_lt (by decide)]
    show execute _ (decodeAt ⟨#[0x91]⟩ 0) _ = _
    rw [hinsn]
    rfl
  obtain ⟨i, hi, -, -, hfalls⟩ :=
    step_describes (s := { stack := [4, 2, 7] }) (by decide) hwords hd hstep
  obtain rfl : .op (.swap 1) = i := hinsn.symm.trans (Except.ok.inj hi)
  refine ⟨hd, hstep, (hfalls ?_).2⟩
  rintro (h | ⟨h, -⟩) <;> cases h

end Machine

end EvmToolchain
