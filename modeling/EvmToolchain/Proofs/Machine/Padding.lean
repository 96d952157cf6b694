import EvmToolchain.Proofs.Code.NormalForm
import EvmToolchain.Proofs.Machine.Lockstep

/-!
# EvmToolchain.Proofs.Machine.Padding

Code followed by zeros.

Past its end, code reads as zeros, which are `STOP` instructions. So zeros behind the
code change no byte that is read (`Bytes.byteAt_append_zeros`), and hence no
instruction at any offset. They only move the end: the first of them complete a push
that the code cuts off, the others are instructions of their own
(`decodeAll_append_zeros`), and a run that stops past the end of the code may execute
one of these instead (`Machine.run_append_zeros`).
-/

namespace EvmToolchain

open Instruction

/-! ### Decoding -/

namespace Bytes

@[simp] theorem size_append_zeros (b : Bytes) (k : Nat) : (b ++ zeros k).size = b.size + k := by
  rw [ByteArray.size_append, size_zeros]

@[simp] theorem byteAt_append_zeros (b : Bytes) (k i : Nat) :
    (b ++ zeros k).byteAt i = b.byteAt i := by
  rw [byteAt_append]
  split
  · rfl
  · next h => rw [byteAt_zeros, byteAt_of_size_le (Nat.not_lt.mp h)]

end Bytes

variable {code : Bytes} {k pc : Nat}

@[simp] theorem Instruction.decodeAt_append_zeros (code : Bytes) (k pc : Nat) :
    decodeAt (code ++ Bytes.zeros k) pc = decodeAt code pc :=
  decodeAt_congr fun _ _ => Bytes.byteAt_append_zeros code k _

/-- Past the end of the code there are stops only. -/
theorem Instruction.decodeAt_of_size_le (h : code.size ≤ pc) : decodeAt code pc = op .stop := by
  refine decodeAt_op ?_
  rw [Bytes.byteAt_of_size_le h]
  rfl

theorem walk_append_zeros {a b : Nat} : Walk (code ++ Bytes.zeros k) a b ↔ Walk code a b :=
  Walk.congr_iff (fun pc _ _ => decodeAt_append_zeros code k pc) (Nat.le_refl b)

theorem sweep_append_zeros (code : Bytes) (k a b : Nat) :
    sweep (code ++ Bytes.zeros k) a b = sweep code a b := by
  fun_induction sweep code a b with
  | case1 pc hlt insn ih => rw [sweep_of_lt hlt, decodeAt_append_zeros, ih]
  | case2 pc hge => rw [sweep_of_le (Nat.not_lt.mp hge)]

/-- The decoding past the end of the code. -/
theorem map_sweep_past_end (h : code.size ≤ pc) (stop : Nat) :
    (sweep code pc stop).map (·.instruction) = List.replicate (stop - pc) (op .stop) := by
  fun_induction sweep code pc stop with
  | case1 pc hlt insn ih =>
      have hstop : insn = op .stop := decodeAt_of_size_le h
      have hlength : insn.length = 1 := by
        rw [hstop]
        rfl
      have hcount : stop - pc = stop - (pc + 1) + 1 := by omega
      rw [hlength] at ih ⊢
      rw [List.map_cons, ih (by omega), hcount, List.replicate_succ, hstop]
  | case2 pc hge => simp [Nat.sub_eq_zero_of_le (Nat.not_lt.mp hge)]

/-- A push that lacks bytes is the last instruction of the code, and zeros are read in
their place. -/
theorem exists_push_of_missing (h : 0 < missing code) :
    ∃ l ∈ listing code, ∃ data, l.instruction = .push data ∧
      l.offset + 1 + data.length = code.size + missing code := by
  have hpos : 0 < code.size := by
    refine Nat.pos_of_ne_zero fun hzero => ?_
    rw [missing_of_size_eq_zero hzero] at h
    exact absurd h (Nat.lt_irrefl 0)
  obtain ⟨l, hl, hnext⟩ := exists_last hpos
  refine ⟨l, hl, ?_⟩
  obtain ⟨pc, rfl, -, hlt⟩ := exists_of_mem_sweep hl
  have hnext : pc + (decodeAt code pc).length = code.size + missing code := hnext
  have hreadable := readable_decodeAt code pc
  show ∃ data, decodeAt code pc = push data ∧ pc + 1 + data.length = code.size + missing code
  generalize decodeAt code pc = i at hnext hreadable
  cases hreadable with
  | @push data _ _ =>
      refine ⟨data, rfl, ?_⟩
      rw [← hnext, Nat.add_assoc]
      rfl
  -- any other instruction has one byte, so it ends within the code
  | _ =>
      have hnext : pc + 1 = code.size + missing code := hnext
      omega

/-- Zeros behind the code first complete a push that the code cuts off. -/
theorem decodeAll_append_zeros (code : Bytes) (k : Nat) :
    decodeAll (code ++ Bytes.zeros k)
      = decodeAll code ++ List.replicate (k - missing code) (op .stop) := by
  rw [decodeAll, listing, sweep_append_zeros, Bytes.size_append_zeros]
  rcases Nat.eq_zero_or_pos code.size with hzero | hpos
  · rw [decodeAll, listing, hzero, sweep_self, missing_of_size_eq_zero hzero,
      map_sweep_past_end (Nat.le_of_eq hzero), Nat.zero_add]
    rfl
  · obtain ⟨l, hl, hnext⟩ := exists_last hpos
    obtain ⟨pc, rfl, hwalk, hlt⟩ := exists_of_mem_sweep hl
    have hnext : pc + (decodeAt code pc).length = code.size + missing code := hnext
    have hlisting : listing code = sweep code 0 pc ++ [⟨pc, decodeAt code pc⟩] := by
      rw [listing, sweep_eq_cons hwalk hlt, hnext, sweep_of_le (Nat.le_add_right _ _)]
    rw [sweep_eq_cons hwalk (Nat.lt_add_right k hlt), hnext, decodeAll, hlisting,
      List.append_cons, List.map_append, map_sweep_past_end (Nat.le_add_right _ _),
      Nat.add_sub_add_left]

/-! ### Running -/

namespace Machine

variable {calldata : Bytes} {s : State} {o : Outcome}

theorem Program.isJumpdest_append_zeros (code calldata : Bytes) (k dest : Nat) :
    (load (code ++ Bytes.zeros k) calldata).isJumpdest dest
      = (load code calldata).isJumpdest dest := by
  rw [Bool.eq_iff_iff, isJumpdest_iff, isJumpdest_iff, walk_append_zeros, IsJumpdestAt,
    IsJumpdestAt, decodeAt_append_zeros, Bytes.size_append_zeros]
  refine and_congr_right fun _ => and_congr_left fun hjump => ?_
  constructor
  · intro _
    refine Nat.lt_of_not_le fun hle => ?_
    rw [decodeAt_of_size_le hle] at hjump
    cases hjump
  · intro hlt
    exact Nat.lt_add_right k hlt

/-- Within the code, the zeros behind it make no difference to a step. -/
theorem step_append_zeros (hpc : s.pc < code.size) :
    step (.load (code ++ Bytes.zeros k) calldata) s = step (.load code calldata) s := by
  refine step_congr hpc ?_ (decodeAt_append_zeros code k s.pc) rfl
    fun dest _ _ => Program.isJumpdest_append_zeros code calldata k dest
  show s.pc < (code ++ Bytes.zeros k).size
  rw [Bytes.size_append_zeros]
  exact Nat.lt_add_right k hpc

/-- The zeros behind the code stop a run. -/
theorem step_zeros (hle : code.size ≤ s.pc) (hlt : s.pc < code.size + k) :
    step (.load (code ++ Bytes.zeros k) calldata) s
      = .halt .stopped { s with steps := s.steps + 1 } := by
  have hpc : s.pc < (Program.load (code ++ Bytes.zeros k) calldata).code.size :=
    (Bytes.size_append_zeros code k).symm ▸ hlt
  rw [step_of_lt hpc]
  show execute _ (decodeAt (code ++ Bytes.zeros k) s.pc) _ = _
  rw [decodeAt_append_zeros, decodeAt_of_size_le hle]
  rfl

/-- The outcome of a run that makes one step more, on a stop. -/
def Outcome.later (o : Outcome) : Outcome :=
  { o with state := { o.state with steps := o.state.steps + 1 } }

/-- Past the end of the code, the run on the code followed by zeros stops at once or
with its next step. -/
theorem runFrom_zeros (hle : code.size ≤ s.pc) (k : Nat) (limit : Int) (n : Nat) :
    ∃ o', runFrom (.load (code ++ Bytes.zeros k) calldata) limit (n + 1) s = .ok o' ∧
      (o' = ⟨.stopped, s⟩ ∨ o' = Outcome.later ⟨.stopped, s⟩) := by
  rcases Nat.lt_or_ge s.pc (code.size + k) with hlt | hge
  · refine ⟨_, runFrom_of_halt ?_ (step_zeros hle hlt) limit n, Or.inr rfl⟩
    exact (Bytes.size_append_zeros code k).symm ▸ hlt
  · refine ⟨_, runFrom_of_le ?_ limit (n + 1), Or.inl rfl⟩
    exact (Bytes.size_append_zeros code k).symm ▸ hge

/-- From any state, the run on the code followed by zeros ends like the run on the
code, if it may make one step more. -/
theorem runFrom_append_zeros {limit : Int} {n : Nat}
    (h : runFrom (.load code calldata) limit n s = .ok o) (k : Nat) (limit' : Int) :
    ∃ o', runFrom (.load (code ++ Bytes.zeros k) calldata) limit' (n + 1) s = .ok o' ∧
      (o' = o ∨ o' = o.later) := by
  induction n generalizing s with
  | zero =>
      unfold runFrom at h
      split at h
      · next hend =>
        obtain rfl := Except.ok.inj h
        exact runFrom_zeros hend k limit' 0
      · cases h
  | succ n ih =>
      unfold runFrom at h
      split at h
      · next hend =>
        obtain rfl := Except.ok.inj h
        exact runFrom_zeros hend k limit' (n + 1)
      · next hpc =>
        -- within the code both runs make the same step
        have hpc : s.pc < code.size := Nat.not_le.mp hpc
        have hpc' : ¬ (Program.load (code ++ Bytes.zeros k) calldata).code.size ≤ s.pc := by
          show ¬ (code ++ Bytes.zeros k).size ≤ s.pc
          rw [Bytes.size_append_zeros]
          omega
        rw [runFrom, if_neg hpc']
        dsimp only at h ⊢
        rw [step_append_zeros hpc]
        split at h
        · exact ih h
        · exact ⟨o, h, Or.inl rfl⟩
        · cases h

/-- Code past the end reads as zero. Followed by zeros, the code is decoded to the same
instructions and then to stops, of which there are as many as there are zeros left when
a push that the code cuts off is complete. Only such a push lacks bytes. And whenever a
run on the code has an outcome, the run on the code followed by zeros, which may make one
step more, has the same outcome, with the same number of steps or one more. -/
theorem run_append_zeros (code : Bytes) (k : Nat) :
    decodeAll (code ++ Bytes.zeros k)
        = decodeAll code ++ List.replicate (k - missing code) (op .stop) ∧
      (0 < missing code → ∃ l ∈ listing code, ∃ data, l.instruction = .push data ∧
        l.offset + 1 + data.length = code.size + missing code) ∧
      ∀ (calldata : Bytes) (storage : Storage) (limit : Nat) (o : Outcome),
        run (.load code calldata) storage limit = .ok o →
          ∃ o', run (.load (code ++ Bytes.zeros k) calldata) storage (limit + 1 : Nat) = .ok o' ∧
            o'.ending = o.ending ∧ o'.state.stack = o.state.stack ∧
            o'.state.memory = o.state.memory ∧ o'.state.storage = o.state.storage ∧
            (o'.state.steps = o.state.steps ∨ o'.state.steps = o.state.steps + 1) := by
  refine ⟨decodeAll_append_zeros code k, exists_push_of_missing,
    fun calldata storage limit o h => ?_⟩
  obtain ⟨o', hrun, hsame⟩ := runFrom_append_zeros h k ((limit + 1 : Nat) : Int)
  refine ⟨o', hrun, ?_⟩
  rcases hsame with rfl | rfl
  · exact ⟨rfl, rfl, rfl, rfl, Or.inl rfl⟩
  · exact ⟨rfl, rfl, rfl, rfl, Or.inr rfl⟩

/-- A push that lacks a byte, followed by a zero that completes it and one more. -/
theorem run_append_zeros_push :
    let code : Bytes := ⟨#[0x61, 0x01]⟩
    decodeAll (code ++ Bytes.zeros 2) = [push [0x01, 0x00], op .stop] ∧
      ∃ o, run (.load (code ++ Bytes.zeros 2) .empty) ∅ 2 = .ok o ∧ o.ending = .stopped ∧
        o.state.stack = [256] ∧ (o.state.steps = 1 ∨ o.state.steps = 2) := by
  intro code
  obtain ⟨hdecode, -, hrun⟩ := run_append_zeros code 2
  have hcode : decodeAll code = [push [0x01, 0x00]] ∧ missing code = 1 := by decide +kernel
  have hshort : run (.load code .empty) ∅ (1 : Nat)
      = .ok ⟨.stopped, { pc := 3, stack := [256], steps := 1 }⟩ := rfl
  refine ⟨?_, ?_⟩
  · rw [hdecode, hcode.1, hcode.2]
    rfl
  · obtain ⟨o, ho, hending, hstack, -, -, hsteps⟩ := hrun .empty ∅ 1 _ hshort
    exact ⟨o, ho, hending, hstack, hsteps⟩

end Machine

end EvmToolchain
