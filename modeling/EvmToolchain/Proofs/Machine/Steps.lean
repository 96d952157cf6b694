import EvmToolchain.Machine.Run
import EvmToolchain.Proofs.Code.Blocks

/-!
# EvmToolchain.Proofs.Machine.Steps

Runs of the machine as a relation.

`Steps` counts the steps between two states. The function `runFrom` is related
to it once: its budget goes down by the steps made (`Steps.runFrom_add`), and it
is exhausted as long as the machine can go on (`Steps.runFrom_stepLimit`).
-/

namespace EvmToolchain.Machine

/-- Jumps may go to the jump destinations on the walk from the start of the code. -/
theorem Program.isJumpdest_iff {code calldata : Bytes} {dest : Nat} :
    (load code calldata).isJumpdest dest = true ↔
      Walk code 0 dest ∧ dest < code.size ∧ Instruction.IsJumpdestAt code dest := by
  rw [isJumpdest_load, jumpdestOffsets, List.mem_map]
  constructor
  · rintro ⟨l, hl, rfl⟩
    obtain ⟨hmem, hjump⟩ := List.mem_filter.mp hl
    obtain ⟨hwalk, hlt, hinsn⟩ := mem_sweep.mp hmem
    refine ⟨hwalk, hlt, ?_⟩
    rw [Instruction.IsJumpdestAt, ← hinsn]
    exact eq_of_beq hjump
  · rintro ⟨hwalk, hlt, hjump⟩
    refine ⟨⟨dest, Instruction.decodeAt code dest⟩, List.mem_filter.mpr ⟨?_, ?_⟩, rfl⟩
    · exact mem_sweep.mpr ⟨hwalk, hlt, rfl⟩
    · exact beq_iff_eq.mpr hjump

/-- A step on an instruction of the code executes that instruction. -/
theorem step_of_lt {p : Program} {s : State} (hpc : s.pc < p.code.size) :
    step p s
      = execute p (Instruction.decodeAt p.code s.pc) { s with steps := s.steps + 1 } := by
  rw [step, Instruction.decode_of_lt hpc]

/-- The machine gets from one state to another in a number of steps, each of
them on an instruction of the code. -/
inductive Steps (p : Program) : Nat → State → State → Prop
  | refl (s : State) : Steps p 0 s s
  | head {n : Nat} {s t u : State} :
      s.pc < p.code.size → step p s = .next t → Steps p n t u → Steps p (n + 1) s u

namespace Steps

variable {p : Program} {m n : Nat} {s t u : State}

theorem single (hpc : s.pc < p.code.size) (hstep : step p s = .next t) : Steps p 1 s t :=
  .head hpc hstep (.refl t)

theorem trans (h₁ : Steps p m s t) (h₂ : Steps p n t u) : Steps p (m + n) s u := by
  induction h₁ with
  | refl =>
      rw [Nat.zero_add]
      exact h₂
  | head hpc hstep _ ih =>
      rw [Nat.add_right_comm]
      exact .head hpc hstep (ih h₂)

/-- The last step of several. -/
theorem exists_last (h : Steps p (n + 1) s u) :
    ∃ t, Steps p n s t ∧ t.pc < p.code.size ∧ step p t = .next u := by
  induction n generalizing s with
  | zero =>
      cases h with
      | head hpc hstep rest =>
          cases rest
          exact ⟨s, .refl s, hpc, hstep⟩
  | succ n ih =>
      cases h with
      | head hpc hstep rest =>
          obtain ⟨t, hrest, hlast⟩ := ih rest
          exact ⟨t, .head hpc hstep hrest, hlast⟩

/-- The state after a number of steps is determined. -/
theorem unique (h₁ : Steps p n s t) (h₂ : Steps p n s u) : t = u := by
  induction h₁ with
  | refl =>
      cases h₂
      rfl
  | head _ hstep _ ih =>
      cases h₂ with
      | head _ hstep' rest =>
          obtain rfl := Step.next.inj (hstep.symm.trans hstep')
          exact ih rest

/-- The steps that a run makes are taken off its budget. -/
theorem runFrom_add (h : Steps p n s t) (limit : Int) (k : Nat) :
    runFrom p limit (n + k) s = runFrom p limit k t := by
  induction h with
  | refl => rw [Nat.zero_add]
  | @head n s t u hpc hstep _ ih =>
      rw [Nat.add_right_comm, runFrom, if_neg (Nat.not_le.mpr hpc)]
      simp only [hstep]
      exact ih

/-- A run whose budget lets it go no further has failed. -/
theorem runFrom_stepLimit (h : Steps p n s t) (ht : t.pc < p.code.size) (limit : Int) {k : Nat}
    (hk : k ≤ n) : runFrom p limit k s = .error (.stepLimit limit) := by
  induction h generalizing k with
  | refl s =>
      obtain rfl := Nat.le_zero.mp hk
      rw [runFrom, if_neg (Nat.not_le.mpr ht)]
  | @head n s t u hpc hstep _ ih =>
      cases k with
      | zero => rw [runFrom, if_neg (Nat.not_le.mpr hpc)]
      | succ k =>
          rw [runFrom, if_neg (Nat.not_le.mpr hpc)]
          simp only [hstep]
          exact ih ht (Nat.le_of_succ_le_succ hk)

end Steps

/-- A run that has got past the end of the code has stopped. -/
theorem runFrom_of_le {p : Program} {s : State} (h : p.code.size ≤ s.pc) (limit : Int) (k : Nat) :
    runFrom p limit k s = .ok ⟨.stopped, s⟩ := by
  cases k <;> rw [runFrom, if_pos h]

/-- A run that executes an instruction which ends it has ended. -/
theorem runFrom_of_halt {p : Program} {s t : State} {e : Ending} (hpc : s.pc < p.code.size)
    (hstep : step p s = .halt e t) (limit : Int) (k : Nat) :
    runFrom p limit (k + 1) s = .ok ⟨e, t⟩ := by
  rw [runFrom, if_neg (Nat.not_le.mpr hpc)]
  simp only [hstep]

/-- A run that has ended has got past the end of the code, or to an instruction that
ends it. -/
theorem exists_steps_of_runFrom {p : Program} {limit : Int} {k : Nat} {s : State} {o : Outcome}
    (h : runFrom p limit k s = .ok o) :
    ∃ n t, Steps p n s t ∧
      (p.code.size ≤ t.pc ∧ o = ⟨.stopped, t⟩ ∨
        t.pc < p.code.size ∧ step p t = .halt o.ending o.state) := by
  induction k generalizing s with
  | zero =>
      unfold runFrom at h
      split at h
      · next hend => exact ⟨0, s, .refl s, Or.inl ⟨hend, (Except.ok.inj h).symm⟩⟩
      · cases h
  | succ k ih =>
      unfold runFrom at h
      split at h
      · next hend => exact ⟨0, s, .refl s, Or.inl ⟨hend, (Except.ok.inj h).symm⟩⟩
      · next hpc =>
        have hpc := Nat.not_le.mp hpc
        dsimp only at h
        split at h
        · next after hstep =>
          obtain ⟨n, t, hsteps, ht⟩ := ih h
          exact ⟨n + 1, t, .head hpc hstep hsteps, ht⟩
        · next ending after hstep =>
          obtain rfl := Except.ok.inj h
          exact ⟨0, s, .refl s, Or.inr ⟨hpc, hstep⟩⟩
        · cases h

end EvmToolchain.Machine
