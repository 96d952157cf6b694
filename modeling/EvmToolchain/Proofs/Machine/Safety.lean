import EvmToolchain.Proofs.Machine.StackEffect
import EvmToolchain.Proofs.Machine.Words
import Mathlib.Algebra.Group.Int.Defs

/-!
# EvmToolchain.Proofs.Machine.Safety

The states that the machine passes through are safe, and no step fails.

A state is safe (`Machine.State.Safe`) if it is at an instruction boundary or
past the end of the code, its stack and memory are within their limits, and it
has put nothing but words on the stack and into the storage. Every step from a
safe state leads to one, whether execution goes on or halts
(`Machine.State.Safe.step_ensures`): each way to put a step together keeps what
its parts keep, so the cases of `executeOp` need no argument of their own. The
two errors that a step could have, of decoding and of writing a value that is
no word, are ruled out on the way.
-/

namespace EvmToolchain

open Instruction

namespace Memory

/-- The memory is a whole number of words, within the bound. -/
structure Fits (m : Memory) : Prop where
  dvd : 32 ∣ m.size
  size_le : m.size ≤ 2 ^ 24

theorem fits_empty : Fits ByteArray.empty := ⟨Nat.dvd_zero _, Nat.zero_le _⟩

/-- Rounding up to whole words does not go past the bound, which is one. -/
theorem roundUp_spec {stop : Nat} (h : stop ≤ maxMemory) :
    32 ∣ roundUp stop ∧ roundUp stop ≤ 2 ^ 24 := by
  simp only [roundUp, wordBytes, maxMemory] at h ⊢
  omega

variable {m grown : Memory}

/-- Memory that is grown for an access fits and covers it. -/
theorem Fits.reserve? (hm : m.Fits) {stop : Nat} (h : m.reserve? stop = some grown) :
    grown.Fits ∧ stop ≤ grown.size := by
  unfold Memory.reserve? at h
  split at h
  · next hstop =>
    obtain rfl := Option.some.inj h
    refine ⟨?_, m.le_size_grow stop⟩
    obtain ⟨hdvd, hle⟩ := roundUp_spec hstop
    have hsize := m.size_grow stop
    split at hsize
    · exact ⟨hsize ▸ hdvd, hsize ▸ hle⟩
    · exact ⟨hsize ▸ hm.dvd, hsize ▸ hm.size_le⟩
  · cases h

theorem Fits.touch? (hm : m.Fits) {offset size : Nat} (h : m.touch? offset size = some grown) :
    grown.Fits := by
  unfold Memory.touch? at h
  split at h
  · obtain rfl := Option.some.inj h
    exact hm
  · exact (hm.reserve? h).1

theorem Fits.overwrite (hm : m.Fits) {start : Nat} {new : List UInt8}
    (h : start + new.length ≤ m.size) : Fits (Bytes.overwrite m start new) := by
  have hsize := Bytes.size_overwrite h
  exact ⟨hsize ▸ hm.dvd, hsize ▸ hm.size_le⟩

end Memory

namespace Machine

/-- An offset past the end of the code, or that of one of its instructions. -/
def AtBoundary (code : Bytes) (pc : Nat) : Prop :=
  code.size ≤ pc ∨ ∃ l ∈ listing code, l.offset = pc

/-- The storages differ in words under words only. -/
def WritesWords (start storage : Storage) : Prop :=
  ∀ key : Int, storage[key]? = start[key]? ∨
    (0 ≤ key ∧ key < 2 ^ 256) ∧ ∃ value : Int, storage[key]? = some value ∧
      0 ≤ value ∧ value < 2 ^ 256

/-- The state of a run over some code is in order. The run has started from the
given storage. -/
structure State.Safe (code : Bytes) (start : Storage) (s : State) : Prop where
  boundary : AtBoundary code s.pc
  stack_le : s.stack.length ≤ 1024
  words : ∀ v ∈ s.stack, v < 2 ^ 256
  memory : s.memory.Fits
  storage : WritesWords start s.storage

/-- The step does not fail, and the state that it leads to has the property,
whether execution goes on from there or has ended. -/
def Step.Ensures (P : State → Prop) : Step → Prop
  | .next s => P s
  | .halt _ s => P s
  | .error _ => False

theorem atBoundary_of_walk {code : Bytes} {pc : Nat} (h : Walk code 0 pc) : AtBoundary code pc := by
  rcases Nat.lt_or_ge pc code.size with hlt | hge
  · exact Or.inr ⟨⟨pc, decodeAt code pc⟩, mem_sweep.mpr ⟨h, hlt, rfl⟩, rfl⟩
  · exact Or.inl hge

theorem AtBoundary.walk {code : Bytes} {pc : Nat} (h : AtBoundary code pc) (hpc : pc < code.size) :
    Walk code 0 pc := by
  rcases h with hge | ⟨l, hl, rfl⟩
  · exact absurd hpc (Nat.not_lt.mpr hge)
  · exact (mem_sweep.mp hl).1

/-- Storing a word under a word. -/
theorem WritesWords.insert {start storage : Storage} (h : WritesWords start storage)
    {key value : Nat} (hkey : key < 2 ^ 256) (hvalue : value < 2 ^ 256) :
    WritesWords start (storage.insert key value) := by
  intro k
  rw [Std.TreeMap.getElem?_insert]
  split
  · next hk =>
    obtain rfl : (key : Int) = k := compare_eq_iff_eq.mp hk
    exact Or.inr ⟨⟨Int.natCast_nonneg _, by exact_mod_cast hkey⟩, _, rfl,
      Int.natCast_nonneg _, by exact_mod_cast hvalue⟩
  · exact h k

namespace State.Safe

variable {code calldata : Bytes} {start : Storage} {s : State} {next : Nat}

theorem initial (code : Bytes) (storage : Storage) : (initial storage).Safe code storage where
  boundary := atBoundary_of_walk (.refl 0)
  stack_le := Nat.zero_le _
  words := List.forall_mem_nil _
  memory := Memory.fits_empty
  storage := fun _ => Or.inl rfl

/-! ### Parts of steps -/

/-- A pushed word is cut to its size, and an overflow leaves the state as it is. -/
theorem push_ensures (h : s.Safe code start) (hnext : AtBoundary code next) (value : Nat) :
    (s.push next value).Ensures (Safe code start) := by
  unfold push
  split
  · next hlt =>
    have hword : Word.wrap value < 2 ^ 256 := Semantics.modulus_eq ▸ Word.wrap_lt value
    exact { h with
      boundary := hnext
      stack_le := hlt
      words := List.forall_mem_cons.mpr ⟨hword, h.words⟩ }
  · exact h

theorem jump_ensures (h : s.Safe code start) (dest : Nat) :
    (s.jump (.load code calldata) dest).Ensures (Safe code start) := by
  unfold jump
  split
  · next hdest =>
    exact { h with boundary := atBoundary_of_walk (Program.isJumpdest_iff.mp hdest).1 }
  · exact h

/-- An operand that is taken off the stack is a word. -/
theorem withOne_ensures {k : Nat → State → Step} (h : s.Safe code start)
    (hk : ∀ a t, a < 2 ^ 256 → t.Safe code start → (k a t).Ensures (Safe code start)) :
    (s.withOne k).Ensures (Safe code start) := by
  unfold withOne
  split
  · next a rest hstack =>
    obtain ⟨ha, hrest⟩ := List.forall_mem_cons.mp (hstack ▸ h.words)
    have hlen := h.stack_le
    rw [hstack, List.length_cons] at hlen
    exact hk a _ ha { h with stack_le := Nat.le_of_succ_le hlen, words := hrest }
  · exact { h with stack_le := Nat.zero_le _, words := List.forall_mem_nil _ }

theorem withTwo_ensures {k : Nat → Nat → State → Step} (h : s.Safe code start)
    (hk : ∀ a b t, a < 2 ^ 256 → b < 2 ^ 256 → t.Safe code start →
      (k a b t).Ensures (Safe code start)) :
    (s.withTwo k).Ensures (Safe code start) :=
  h.withOne_ensures fun a _ ha hs => hs.withOne_ensures fun b _ hb ht => hk a b _ ha hb ht

theorem finish_ensures (h : s.Safe code start) (offset size : Nat) (ending : Bytes → Ending) :
    (s.finish offset size ending).Ensures (Safe code start) := by
  unfold finish
  split
  · next grown hgrown => exact { h with memory := h.memory.touch? hgrown }
  · exact h

theorem load_ensures (h : s.Safe code start) (hnext : AtBoundary code next) (offset : Nat) :
    (s.load next offset).Ensures (Safe code start) := by
  unfold load
  split
  · next grown hgrown =>
    have hgrew : Safe code start { s with memory := grown } :=
      { h with memory := h.memory.touch? hgrown }
    exact hgrew.push_ensures hnext _
  · exact h

/-- A word fits the bytes that are written for it. -/
theorem store_ensures (h : s.Safe code start) (hnext : AtBoundary code next) (offset : Nat)
    {value : Nat} (hvalue : value < 2 ^ 256) :
    (s.store next offset value).Ensures (Safe code start) := by
  unfold store
  split
  · exact h
  · next grown hgrown =>
    obtain ⟨hfits, hcovers⟩ := h.memory.reserve? hgrown
    rw [if_pos (Semantics.modulus_eq ▸ hvalue)]
    exact { h with
      boundary := hnext
      memory := hfits.overwrite (by rw [BigEndian.length_ofNat]; exact hcovers) }

theorem exchange_ensures (h : s.Safe code start) (hnext : AtBoundary code next) {n a b : Nat}
    (ha : s.stack[0]? = some a) (hb : s.stack[n + 1]? = some b) :
    (Step.next { s with stack := (s.stack.set 0 b).set (n + 1) a, pc := next }).Ensures
      (Safe code start) := by
  have hwords : AllWords s.stack := fun v hv => Semantics.modulus_eq ▸ h.words v hv
  have hset := (hwords.set (hwords b (List.mem_of_getElem? hb)) 0).set
    (hwords a (List.mem_of_getElem? ha)) (n + 1)
  exact { h with
    boundary := hnext
    stack_le := by simpa using h.stack_le
    words := fun v hv => Semantics.modulus_eq ▸ hset v hv }

/-! ### Steps -/

/-- The opcodes without an effect of their own push a word or are not supported. -/
theorem operation_ensures {p : Program} {o : Opcode} (h : s.Safe code start)
    (hnext : AtBoundary code next)
    (hop : executeOp p o next s = match binary? o, unary? o with
      | some f, _ => s.withTwo fun a b s => s.push next (f a b)
      | none, some f => s.withOne fun a s => s.push next (f a)
      | none, none => s.fault (.unsupported o.name)) :
    (executeOp p o next s).Ensures (Safe code start) := by
  rw [hop]
  split
  · exact h.withTwo_ensures fun a b t _ _ ht => ht.push_ensures hnext _
  · exact h.withOne_ensures fun a t _ ht => ht.push_ensures hnext _
  · exact h

theorem executeOp_ensures (h : s.Safe code start) (hnext : AtBoundary code next) (o : Opcode) :
    (executeOp (.load code calldata) o next s).Ensures (Safe code start) := by
  cases o with
  | stop | invalid => exact h
  | ret => exact h.withTwo_ensures fun offset size t _ _ ht => ht.finish_ensures offset size _
  | revert => exact h.withTwo_ensures fun offset size t _ _ ht => ht.finish_ensures offset size _
  | dup n =>
      simp only [executeOp]
      split
      · exact h.push_ensures hnext _
      · exact h
  | swap n =>
      simp only [executeOp]
      split
      · next a b ha hb => exact h.exchange_ensures hnext ha hb
      · exact h
  | pop =>
      simp only [executeOp]
      refine h.withOne_ensures fun _ t _ ht => ?_
      exact { ht with boundary := hnext }
  | mload => exact h.withOne_ensures fun offset t _ ht => ht.load_ensures hnext offset
  | mstore =>
      exact h.withTwo_ensures fun offset value t _ hvalue ht => ht.store_ensures hnext offset hvalue
  | sload | callDataLoad =>
      simp only [executeOp]
      exact h.withOne_ensures fun _ t _ ht => ht.push_ensures hnext _
  | sstore =>
      refine h.withTwo_ensures fun key value t hkey hvalue ht => ?_
      exact { ht with boundary := hnext, storage := ht.storage.insert hkey hvalue }
  | callDataSize => exact h.push_ensures hnext _
  | jump => exact h.withOne_ensures fun dest t _ ht => ht.jump_ensures dest
  | jumpi =>
      refine h.withTwo_ensures fun dest cond t _ _ ht => ?_
      split
      · exact { ht with boundary := hnext }
      · exact ht.jump_ensures dest
  -- what is left computes a word from its operands, or is not supported
  | _ => exact h.operation_ensures hnext rfl

theorem execute_ensures {i : Instruction} (hi : i.Readable) (h : s.Safe code start)
    (hnext : AtBoundary code (s.pc + i.length)) :
    (execute (.load code calldata) i s).Ensures (Safe code start) := by
  cases hi with
  | push0 => exact h.push_ensures hnext _
  | push => exact h.push_ensures hnext _
  | jumpdest => exact { h with boundary := hnext }
  | op o => exact h.executeOp_ensures hnext o

/-- A step from a safe state does not fail, and leads to a safe state. -/
theorem step_ensures (h : s.Safe code start) (hpc : s.pc < code.size) :
    (step (.load code calldata) s).Ensures (Safe code start) := by
  have hcounted : Safe code start { s with steps := s.steps + 1 } := { h with }
  have hnext : AtBoundary code (s.pc + (decodeAt code s.pc).length) :=
    atBoundary_of_walk (h.boundary.walk hpc).snoc
  rw [step_of_lt hpc]
  exact hcounted.execute_ensures (readable_decodeAt code s.pc) hnext

/-! ### Runs -/

theorem steps {n : Nat} {t : State} (h : s.Safe code start)
    (hsteps : Steps (.load code calldata) n s t) : t.Safe code start := by
  induction hsteps with
  | refl => exact h
  | head hpc hstep _ ih =>
      have hensures : Step.Ensures (Safe code start) (step (.load code calldata) _) :=
        h.step_ensures hpc
      rw [hstep] at hensures
      exact ih hensures

/-- A run from a safe state ends in one, or goes on for as long as it may. -/
theorem runFrom (h : s.Safe code start) (limit : Int) (remaining : Nat) :
    (∃ o, Machine.runFrom (.load code calldata) limit remaining s = .ok o ∧
      o.state.Safe code start) ∨
    Machine.runFrom (.load code calldata) limit remaining s = .error (.stepLimit limit) ∧
      ∃ t, Steps (.load code calldata) remaining s t ∧ t.pc < code.size := by
  induction remaining generalizing s with
  | zero =>
      rcases Nat.lt_or_ge s.pc code.size with hpc | hend
      · exact Or.inr ⟨(Steps.refl s).runFrom_stepLimit hpc limit (Nat.le_refl 0), s, .refl s, hpc⟩
      · exact Or.inl ⟨_, runFrom_of_le hend limit 0, h⟩
  | succ remaining ih =>
      rcases Nat.lt_or_ge s.pc code.size with hpc | hend
      · have hensures : Step.Ensures (Safe code start) (step (.load code calldata) s) :=
          h.step_ensures hpc
        cases hstep : step (.load code calldata) s with
        | next t =>
            rw [hstep] at hensures
            have hrun := (Steps.single hpc hstep).runFrom_add limit remaining
            rw [Nat.add_comm] at hrun
            rw [hrun]
            refine (ih hensures).imp_right fun ⟨herror, u, hsteps, hu⟩ => ?_
            exact ⟨herror, u, .head hpc hstep hsteps, hu⟩
        | halt e t =>
            rw [hstep] at hensures
            exact Or.inl ⟨_, runFrom_of_halt hpc hstep limit remaining, hensures⟩
        | error e =>
            rw [hstep] at hensures
            exact hensures.elim
      · exact Or.inl ⟨_, runFrom_of_le hend limit _, h⟩

end State.Safe

/-- Every state that a run passes through is safe, and so is the one in which it
ends. A run that has no ending has used up its steps with code left to execute:
there is no other error. -/
theorem run_safe (code calldata : Bytes) (storage : Storage) (limit : Int) :
    (∀ n s, Steps (.load code calldata) n (initial storage) s → s.Safe code storage) ∧
    ((∃ o, run (.load code calldata) storage limit = .ok o ∧ o.state.Safe code storage) ∨
      run (.load code calldata) storage limit = .error (.stepLimit limit) ∧
        ∃ s, Steps (.load code calldata) limit.toNat (initial storage) s ∧ s.pc < code.size) :=
  ⟨fun _ _ hsteps => (State.Safe.initial code storage).steps hsteps,
    (State.Safe.initial code storage).runFrom limit limit.toNat⟩

end Machine
end EvmToolchain
