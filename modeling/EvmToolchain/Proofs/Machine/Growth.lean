import EvmToolchain.Proofs.Machine.Accesses

/-!
# EvmToolchain.Proofs.Machine.Growth

Memory only grows.

No step gives up memory (`Machine.State.step_grows`), so along a run the size of
the memory goes up (`Machine.Steps.memory_size_le`), also to the end of the run
(`Machine.memory_size_le_of_runFrom`). A memory that has grown and reads as before
has been extended by zeros (`Memory.exists_append_zeros`).
-/

namespace EvmToolchain

open Instruction

/-! ### Memories that read the same -/

theorem Bytes.ext_contents {a b : Bytes} (h : a.contents = b.contents) : a = b := by
  obtain ⟨a⟩ := a
  obtain ⟨b⟩ := b
  exact congrArg ByteArray.mk (Array.toList_inj.mp h)

theorem Bytes.getElem?_contents (b : Bytes) (i : Nat) :
    b.contents[i]? = if i < b.size then some (b.byteAt i) else none := by
  split
  · next h =>
    have hlt : i < b.contents.length := by rwa [length_contents]
    rw [byteAt_eq_getD, List.getD_eq_getElem?_getD, List.getElem?_eq_getElem hlt]
    rfl
  · next h =>
    have hle : b.contents.length ≤ i := by
      rw [length_contents]
      exact Nat.not_lt.mp h
    exact List.getElem?_eq_none hle

/-- Buffers of one size that read the same are the same. -/
theorem Bytes.ext_byteAt {a b : Bytes} (hsize : a.size = b.size) (h : a.byteAt = b.byteAt) :
    a = b := by
  refine ext_contents (List.ext_getElem? fun i => ?_)
  rw [getElem?_contents, getElem?_contents, hsize, h]

namespace Memory

variable {m grown : Memory}

/-- A memory that is larger and reads the same has been extended by zeros. -/
theorem exists_append_zeros (hsize : m.size ≤ grown.size)
    (h : Bytes.byteAt grown = Bytes.byteAt m) : ∃ count, grown = m ++ Bytes.zeros count := by
  refine ⟨grown.size - m.size, Bytes.ext_byteAt ?_ ?_⟩
  · rw [ByteArray.size_append, Bytes.size_zeros, Nat.add_sub_cancel' hsize]
  · funext i
    rw [h, Bytes.byteAt_append, Bytes.byteAt_zeros]
    split
    · rfl
    · next hge => exact Bytes.byteAt_of_size_le (Nat.not_lt.mp hge)

theorem size_le_of_reserve? {stop : Nat} (h : m.reserve? stop = some grown) :
    m.size ≤ grown.size ∧ stop ≤ grown.size := by
  unfold reserve? at h
  split at h
  · obtain rfl := Option.some.inj h
    refine ⟨?_, m.le_size_grow stop⟩
    rw [size_grow]
    have := le_roundUp stop
    split <;> omega
  · cases h

theorem size_le_of_touch? {offset size : Nat} (h : m.touch? offset size = some grown) :
    m.size ≤ grown.size := by
  unfold touch? at h
  split at h
  · obtain rfl := Option.some.inj h
    exact Nat.le_refl _
  · exact (size_le_of_reserve? h).1

end Memory

/-! ### Steps -/

namespace Machine

/-- After the step there is a memory of at least so many bytes. -/
def Step.Grows (bytes : Nat) : Step → Prop
  | .next s | .halt _ s => bytes ≤ s.memory.size
  | .error _ => True

theorem Step.Grows.of_keeps {m : Memory} {step : Step} (h : step.Keeps m) :
    step.Grows m.size := by
  cases step with
  | next t | halt _ t => exact Nat.le_of_eq (congrArg ByteArray.size (Eq.symm h))
  | error _ => trivial

namespace State

variable {s : State} {bytes next : Nat}

theorem push_grows (h : bytes ≤ s.memory.size) (value : Nat) : (s.push next value).Grows bytes := by
  unfold push
  split <;> exact h

theorem finish_grows (h : bytes ≤ s.memory.size) (offset size : Nat) (ending : Bytes → Ending) :
    (s.finish offset size ending).Grows bytes := by
  unfold finish
  split
  · next grown hgrown => exact Nat.le_trans h (Memory.size_le_of_touch? hgrown)
  · exact h

theorem load_grows (h : bytes ≤ s.memory.size) (offset : Nat) :
    (s.load next offset).Grows bytes := by
  unfold load
  split
  · next grown hgrown =>
    exact push_grows (s := { s with memory := grown })
      (Nat.le_trans h (Memory.size_le_of_touch? hgrown)) _
  · exact h

theorem store_grows (h : bytes ≤ s.memory.size) (offset value : Nat) :
    (s.store next offset value).Grows bytes := by
  unfold store
  split
  · exact h
  · next grown hgrown =>
    obtain ⟨hsize, hcovers⟩ := Memory.size_le_of_reserve? hgrown
    split
    · show bytes ≤ ByteArray.size (Bytes.overwrite grown offset _)
      rw [Bytes.size_overwrite (by rw [BigEndian.length_ofNat]; exact hcovers)]
      exact Nat.le_trans h hsize
    · trivial

theorem perform_grows (h : bytes ≤ s.memory.size) (a : Access) :
    (a.perform next s).Grows bytes := by
  cases a with
  | load offset => exact load_grows h offset
  | store offset value => exact store_grows h offset value
  | ret offset size | revert offset size => exact finish_grows h offset size _

/-- A step gives up no memory. -/
theorem step_grows (p : Program) (s : State) : (step p s).Grows s.memory.size := by
  cases ha : s.access? p with
  | some a =>
      obtain ⟨next, hstep⟩ := step_of_access? ha
      rw [hstep]
      exact perform_grows (s := { s with stack := _, steps := _ }) (Nat.le_refl _) a
  | none =>
      rcases Nat.lt_or_ge s.pc p.code.size with hpc | hend
      · exact Step.Grows.of_keeps (step_keeps hpc ha)
      · rw [step, decode, if_neg (by omega)]
        trivial

end State

/-! ### Runs -/

variable {p : Program} {s : State}

/-- Steps give up no memory. -/
theorem Steps.memory_size_le {n : Nat} {t : State} (h : Steps p n s t) :
    s.memory.size ≤ t.memory.size := by
  induction h with
  | refl => exact Nat.le_refl _
  | @head n s t u _ hstep _ ih =>
      have hgrows := State.step_grows p s
      rw [hstep] at hgrows
      exact Nat.le_trans hgrows ih

/-- A run gives up no memory up to its end. -/
theorem memory_size_le_of_runFrom {limit : Int} {k : Nat} {o : Outcome}
    (h : runFrom p limit k s = .ok o) : s.memory.size ≤ o.state.memory.size := by
  obtain ⟨n, t, hsteps, ⟨-, rfl⟩ | ⟨-, hhalt⟩⟩ := exists_steps_of_runFrom h
  · exact hsteps.memory_size_le
  · have hgrows := State.step_grows p t
    rw [hhalt] at hgrows
    exact Nat.le_trans hsteps.memory_size_le hgrows

end Machine

end EvmToolchain
