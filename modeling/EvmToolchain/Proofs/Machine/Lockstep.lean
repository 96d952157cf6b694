import EvmToolchain.Proofs.Code.Alignment
import EvmToolchain.Proofs.Machine.StackEffect

/-!
# EvmToolchain.Proofs.Machine.Lockstep

Two programs that behave alike.

Programs are in `Lockstep` over some states if they make the same steps from
these states and the steps stay among them. Then their runs are equal, whatever
the limit: same ending, same final state with its step count, or both fail. What
an instruction does depends on the program only through the call data and
through the answer to whether its own jump may be taken (`execute_congr`). So
aligned codes behave alike (`Aligned.run_eq`).
-/

namespace EvmToolchain

open Instruction

namespace Machine

variable {p q : Program} {s t : State}

/-! ### Equal steps -/

theorem State.jump_congr {dest : Nat} (h : q.isJumpdest dest = p.isJumpdest dest) :
    s.jump q dest = s.jump p dest := by
  rw [jump, jump, h]

theorem executeOp_congr {o : Opcode} {next : Nat} (hdata : q.calldata = p.calldata)
    (hjump : ∀ dest rest, Takes (.op o) s.stack dest rest → q.isJumpdest dest = p.isJumpdest dest) :
    executeOp q o next s = executeOp p o next s := by
  cases o with
  | callDataLoad => simp only [executeOp, hdata]
  | callDataSize => simp only [executeOp, hdata]
  | jump =>
      simp only [executeOp, State.withOne]
      split
      · next dest rest hstack => exact State.jump_congr (hjump dest rest (hstack ▸ .jump))
      · rfl
  | jumpi =>
      cases hstack : s.stack with
      | nil => simp only [executeOp, State.withTwo, State.withOne, hstack]
      | cons dest rest =>
          cases rest with
          | nil => simp only [executeOp, State.withTwo, State.withOne, hstack]
          | cons cond rest =>
              simp only [executeOp, State.withTwo, State.withOne, hstack]
              split
              · rfl
              · next hcond => exact State.jump_congr (hjump dest rest (hstack ▸ .jumpi hcond))
  -- nothing else looks at the program
  | _ => rfl

/-- An instruction has the same effect in programs that agree on its jump. -/
theorem execute_congr {i : Instruction} (hi : i.Readable) (hdata : q.calldata = p.calldata)
    (hjump : ∀ dest rest, Takes i s.stack dest rest → q.isJumpdest dest = p.isJumpdest dest) :
    execute q i s = execute p i s := by
  cases hi with
  | push => rfl
  | push0 => rfl
  | jumpdest => rfl
  | op o => exact executeOp_congr hdata hjump

/-- A step is the same on the same instruction, if the programs agree on its jump. -/
theorem step_congr (hp : s.pc < p.code.size) (hq : s.pc < q.code.size)
    (hdecode : decodeAt q.code s.pc = decodeAt p.code s.pc) (hdata : q.calldata = p.calldata)
    (hjump : ∀ dest rest, Takes (decodeAt p.code s.pc) s.stack dest rest →
      q.isJumpdest dest = p.isJumpdest dest) : step q s = step p s := by
  rw [step_of_lt hp, step_of_lt hq, hdecode]
  exact execute_congr (readable_decodeAt p.code s.pc) hdata hjump

/-! ### Equal runs -/

/-- Among some states, which the first program does not leave, the second one
makes the same steps. -/
structure Lockstep (p q : Program) (Inv : State → Prop) : Prop where
  ends_iff : ∀ {s}, Inv s → (q.code.size ≤ s.pc ↔ p.code.size ≤ s.pc)
  step_eq : ∀ {s}, Inv s → s.pc < p.code.size → step q s = step p s
  keeps : ∀ {s t}, Inv s → s.pc < p.code.size → step p s = .next t → Inv t

namespace Lockstep

variable {Inv : State → Prop}

theorem runFrom_eq (h : Lockstep p q Inv) (hs : Inv s) (limit : Int) (k : Nat) :
    runFrom q limit k s = runFrom p limit k s := by
  induction k generalizing s with
  | zero =>
      simp only [runFrom, h.ends_iff hs]
  | succ k ih =>
      by_cases hend : p.code.size ≤ s.pc
      · rw [runFrom_of_le hend, runFrom_of_le ((h.ends_iff hs).mpr hend)]
      · rw [runFrom, runFrom, if_neg hend, if_neg fun hq => hend ((h.ends_iff hs).mp hq)]
        have hpc := Nat.not_le.mp hend
        simp only [h.step_eq hs hpc]
        split
        · next after hstep => exact ih (h.keeps hs hpc hstep)
        · rfl
        · rfl

theorem run_eq (h : Lockstep p q Inv) {storage : Storage} (hs : Inv (initial storage))
    (limit : Int) : run q storage limit = run p storage limit :=
  h.runFrom_eq hs limit _

end Lockstep

end Machine

open Machine

namespace Aligned

variable {code code' : Bytes}

/-- Jumps in aligned codes may go to the same offsets. -/
theorem isJumpdest_eq (h : Aligned code code') (calldata : Bytes) (dest : Nat) :
    (Program.load code' calldata).isJumpdest dest
      = (Program.load code calldata).isJumpdest dest := by
  rw [Bool.eq_iff_iff, Program.isJumpdest_iff, Program.isJumpdest_iff, ← and_assoc, ← and_assoc,
    h.walk_iff, and_congr_right_iff]
  rintro ⟨hwalk, hlt⟩
  rw [IsJumpdestAt, IsJumpdestAt, h.decodeAt_eq hwalk hlt]

/-- Runs stay at instruction boundaries, at which aligned codes agree. -/
theorem lockstep (h : Aligned code code') (calldata : Bytes) :
    Lockstep (.load code calldata) (.load code' calldata)
      fun s => AllWords s.stack ∧ Walk code 0 s.pc where
  ends_iff := by
    rintro s ⟨-, hwalk⟩
    exact not_lt.symm.trans ((not_congr (h.lt_size_iff hwalk)).trans not_lt)
  step_eq := by
    rintro s ⟨-, hwalk⟩ hpc
    exact step_congr hpc ((h.lt_size_iff hwalk).mpr hpc) (h.decodeAt_eq hwalk hpc) rfl
      fun dest _ _ => h.isJumpdest_eq calldata dest
  keeps := by
    rintro s t ⟨hwords, hwalk⟩ hpc hstep
    rw [step_of_lt hpc] at hstep
    have hcontinues := execute_next (readable_decodeAt code s.pc)
      (s := { s with steps := s.steps + 1 }) hwords hstep
    cases hcontinues with
    | falls _ hnext _ _ hwords' => exact ⟨hwords', hnext ▸ hwalk.snoc⟩
    | jumps _ hdest hwords' => exact ⟨hwords', (Program.isJumpdest_iff.mp hdest).1⟩

/-- Aligned codes have the same runs. -/
theorem run_eq (h : Aligned code code') (calldata : Bytes) (storage : Storage) (limit : Int) :
    run (.load code' calldata) storage limit = run (.load code calldata) storage limit :=
  (h.lockstep calldata).run_eq ⟨allWords_nil, .refl 0⟩ limit

end Aligned

end EvmToolchain
