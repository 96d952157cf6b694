import EvmToolchain.Proofs.Machine.Accesses
import Mathlib.Order.Bounds.Basic

/-!
# EvmToolchain.Proofs.Machine.Contents

What the memory of a run contains.

Memory is a stretch of bytes that grows as it is accessed. It stands for an array
without an end, which is zero at first and which nothing but stores changes
(`Machine.bytesAfter`): it shows as much of the array as the accesses so far have
reached, in whole words, and what it does not show is zero (`Machine.Shows`). Every
access is served as if it were to the array itself (`Machine.Access.Served`), except
that those past the bound are refused.

One access keeps this up (`Machine.Shows.snoc`, `Machine.Access.perform_serves`), so
a step does (`Machine.Shows.step`), and so a run does (`Machine.Shows.steps`).
-/

namespace EvmToolchain

open Instruction Semantics

namespace Machine

/-! ### The array -/

/-- The bytes after an access. Only stores within the bound write. -/
def Access.write (bytes : Nat → UInt8) : Access → Nat → UInt8
  | .store offset value =>
    if offset + 32 ≤ 2 ^ 24 then writeWord bytes offset (BitVec.ofNat 256 value) else bytes
  | .load _ | .ret _ _ | .revert _ _ => bytes

/-- The bytes after some accesses to an array of zeros. -/
def bytesAfter (made : List Access) : Nat → UInt8 := made.foldl Access.write fun _ => 0

/-- All accesses to some bytes within the bound end by a position. -/
def Covers (made : List Access) (n : Nat) : Prop :=
  ∀ a ∈ made, a.size ≠ 0 → a.stop ≤ 2 ^ 24 → a.stop ≤ n

/-- The memory shows the array after some accesses, in as many words as they reach. -/
structure Shows (made : List Access) (m : Memory) : Prop where
  byte_eq : ∀ i (h : i < m.size), m[i] = bytesAfter made i
  eq_zero : ∀ i, m.size ≤ i → bytesAfter made i = 0
  isLeast : IsLeast {n | 32 ∣ n ∧ Covers made n} m.size

/-- What a step with an access does, given the bytes of the array and the stack below
the operands. -/
def Access.Served (bytes : Nat → UInt8) (rest : List Nat) : Access → Step → Prop
  | .load offset, .next t => t.stack = (readWord bytes offset).toNat :: rest
  | .store _ _, .next t => t.stack = rest
  | .ret offset size, .halt (.returned data) _ =>
    data.contents = (List.range size).map fun k => bytes (offset + k)
  | .revert offset size, .halt (.reverted data) _ =>
    data.contents = (List.range size).map fun k => bytes (offset + k)
  | _, _ => False

/-- The accesses that a number of steps make, in order. They end with the run. -/
def accesses (p : Program) : Nat → State → List Access
  | 0, _ => []
  | n + 1, s =>
    (s.access? p).toList ++
      match step p s with
      | .next t => accesses p n t
      | .halt _ _ | .error _ => []

@[simp] theorem bytesAfter_snoc (made : List Access) (a : Access) :
    bytesAfter (made ++ [a]) = a.write (bytesAfter made) := by
  rw [bytesAfter, List.foldl_append]
  rfl

theorem covers_snoc {made : List Access} {a : Access} {n : Nat} :
    Covers (made ++ [a]) n ↔ Covers made n ∧ (a.size ≠ 0 → a.stop ≤ 2 ^ 24 → a.stop ≤ n) := by
  rw [Covers, List.forall_mem_append, List.forall_mem_singleton]
  rfl

theorem Covers.mono {made : List Access} {n k : Nat} (h : Covers made n) (hle : n ≤ k) :
    Covers made k :=
  fun a ha hsize hstop => Nat.le_trans (h a ha hsize hstop) hle

/-! ### Growing for an access -/

theorem dvd_roundUp (stop : Nat) : 32 ∣ Memory.roundUp stop := Nat.dvd_mul_left _ _

theorem roundUp_le {stop n : Nat} (hdvd : 32 ∣ n) (h : stop ≤ n) : Memory.roundUp stop ≤ n := by
  simp only [Memory.roundUp, wordBytes]
  omega

namespace Access

variable {a : Access} {m : Memory}

theorem byteAt_grow (a : Access) (m : Memory) : Bytes.byteAt (a.grow m) = Bytes.byteAt m := by
  unfold grow
  split
  · rfl
  · exact funext (m.byteAt_grow a.stop)

theorem stop_le_size_grow (a : Access) (m : Memory) : a.size = 0 ∨ a.stop ≤ (a.grow m).size := by
  unfold grow
  split
  · next h => exact Or.inl h
  · exact Or.inr (m.le_size_grow a.stop)

theorem write_of_refused (h : a.Refused) (bytes : Nat → UInt8) : a.write bytes = bytes := by
  cases a with
  | store offset value => exact if_neg (Nat.not_le.mpr h.2)
  | load _ | ret _ _ | revert _ _ => rfl

end Access

/-! ### What memory shows -/

namespace Shows

variable {made : List Access} {m : Memory} {a : Access}

theorem empty : Shows [] ByteArray.empty where
  byte_eq := fun i h => absurd h (Nat.not_lt_zero i)
  eq_zero := fun _ _ => rfl
  isLeast := ⟨⟨Nat.dvd_zero _, List.forall_mem_nil _⟩, fun _ _ => Nat.zero_le _⟩

/-- Reading zeros past the end, memory reads as the array. -/
theorem byteAt_eq (h : Shows made m) : Bytes.byteAt m = bytesAfter made := by
  funext i
  rcases Nat.lt_or_ge i m.size with hlt | hge
  · rw [Bytes.byteAt_of_lt hlt, h.byte_eq i hlt]
  · rw [Bytes.byteAt_of_size_le hge, h.eq_zero i hge]

theorem of_byteAt_eq (hbytes : Bytes.byteAt m = bytesAfter made)
    (hleast : IsLeast {n | 32 ∣ n ∧ Covers made n} m.size) : Shows made m where
  byte_eq := fun i h => (Bytes.byteAt_of_lt h).symm.trans (congrFun hbytes i)
  eq_zero := fun i h => (congrFun hbytes i).symm.trans (Bytes.byteAt_of_size_le h)
  isLeast := hleast

/-- Growing for an access, the memory stays as small as it can be. -/
theorem isLeast_grow (h : Shows made m) (ha : ¬ a.Refused) :
    IsLeast {n | 32 ∣ n ∧ Covers (made ++ [a]) n} (a.grow m).size := by
  obtain ⟨⟨hdvd, hcovers⟩, hleast⟩ := h.isLeast
  simp only [covers_snoc]
  unfold Access.grow
  split
  · next hsize =>
    refine ⟨⟨hdvd, hcovers, fun hne => absurd hsize hne⟩, fun n hn => hleast ⟨hn.1, hn.2.1⟩⟩
  · next hsize =>
    have hstop : a.stop ≤ 2 ^ 24 := Nat.not_lt.mp fun hlt => ha ⟨hsize, hlt⟩
    rw [Memory.size_grow]
    split
    · next hlt =>
      have hround := Memory.le_roundUp a.stop
      refine ⟨⟨dvd_roundUp a.stop, hcovers.mono (by omega), fun _ _ => hround⟩, fun n hn => ?_⟩
      exact roundUp_le hn.1 (hn.2.2 hsize hstop)
    · next hge =>
      exact ⟨⟨hdvd, hcovers, fun _ _ => Nat.not_lt.mp hge⟩, fun n hn => hleast ⟨hn.1, hn.2.1⟩⟩

/-- Memory that has grown for an access and reads as after the access shows the
array after it. -/
theorem snoc (h : Shows made m) (ha : ¬ a.Refused) {after : Memory}
    (hsize : after.size = (a.grow m).size)
    (hbytes : Bytes.byteAt after = a.write (Bytes.byteAt m)) : Shows (made ++ [a]) after := by
  refine of_byteAt_eq ?_ (hsize ▸ h.isLeast_grow ha)
  rw [hbytes, h.byteAt_eq, bytesAfter_snoc]

/-- A refused access leaves memory and the array as they are. -/
theorem snoc_refused (h : Shows made m) (ha : a.Refused) : Shows (made ++ [a]) m := by
  have hcovers : ∀ n, Covers (made ++ [a]) n ↔ Covers made n := fun n =>
    covers_snoc.trans (and_iff_left fun _ hstop => absurd ha.2 (Nat.not_lt.mpr hstop))
  refine of_byteAt_eq ?_ ?_
  · rw [h.byteAt_eq, bytesAfter_snoc, Access.write_of_refused ha]
  · simp only [hcovers]
    exact h.isLeast

end Shows

/-! ### Accesses that are served -/

/-- The step serves the access, and leaves the memory grown for it and written to. -/
def Access.Serves (a : Access) (s : State) (step : Step) : Prop :=
  a.Served (Bytes.byteAt s.memory) s.stack step ∧
    step.Ensures fun t => t.memory.size = (a.grow s.memory).size ∧
      Bytes.byteAt t.memory = a.write (Bytes.byteAt s.memory)

namespace State

variable {s : State} {next offset size value : Nat}

theorem load_serves (ha : ¬ (Access.load offset).Refused) (hroom : s.stack.length < maxStack) :
    (Access.load offset).Serves s (s.load next offset) := by
  have htouch : s.memory.touch? offset wordBytes = some ((Access.load offset).grow s.memory) :=
    Access.touch?_of_not_refused ha s.memory
  simp only [load, htouch, push, if_pos hroom]
  have hbytes := Access.byteAt_grow (.load offset) s.memory
  refine ⟨?_, rfl, hbytes⟩
  show Word.wrap _ :: s.stack = _
  rw [← hbytes, ← toNat_readWord, wrap_toNat]

theorem store_serves (ha : ¬ (Access.store offset value).Refused) (hvalue : value < Word.modulus) :
    (Access.store offset value).Serves s (s.store next offset value) := by
  have hsize : (Access.store offset value).size ≠ 0 := Nat.succ_ne_zero 31
  have hreserve : s.memory.reserve? (offset + wordBytes)
      = some ((Access.store offset value).grow s.memory) :=
    Access.touch?_of_not_refused ha s.memory
  have hcovers : offset + wordBytes ≤ ((Access.store offset value).grow s.memory).size :=
    (Access.stop_le_size_grow (.store offset value) s.memory).resolve_left hsize
  have hstop : offset + 32 ≤ 2 ^ 24 := Nat.not_lt.mp fun hlt => ha ⟨hsize, hlt⟩
  simp only [store, hreserve, if_pos hvalue]
  refine ⟨rfl, Bytes.size_overwrite (by rw [BigEndian.length_ofNat]; exact hcovers), ?_⟩
  have hword := byteAt_overwrite_word hcovers (BitVec.ofNat 256 value)
  rw [toNat_ofNat hvalue, Access.byteAt_grow] at hword
  exact hword.trans (if_pos hstop).symm

/-- The bytes that are handed back are those of the array. -/
theorem finish_eq {a : Access} (ha : ¬ a.Refused) (ending : Bytes → Ending) :
    ∃ data : Bytes, s.finish a.offset a.size ending
        = .halt (ending data) { s with memory := a.grow s.memory } ∧
      data.contents = (List.range a.size).map fun k => Bytes.byteAt s.memory (a.offset + k) := by
  refine ⟨(a.grow s.memory).slice a.offset a.size, ?_, ?_⟩
  · simp only [finish, Access.touch?_of_not_refused ha s.memory]
  · rw [Memory.contents_slice (a.stop_le_size_grow s.memory), Access.byteAt_grow]

end State

/-- An access that is not refused is served. -/
theorem Access.perform_serves {a : Access} {s : State} (ha : ¬ a.Refused)
    (hroom : s.stack.length < maxStack)
    (hvalue : ∀ offset value, a = .store offset value → value < Word.modulus) (next : Nat) :
    a.Serves s (a.perform next s) := by
  cases a with
  | load offset => exact State.load_serves ha hroom
  | store offset value => exact State.store_serves ha (hvalue offset value rfl)
  | ret offset size =>
      obtain ⟨data, hstep, hdata⟩ := State.finish_eq (s := s) ha .returned
      exact (congrArg _ hstep).mpr ⟨hdata, rfl, Access.byteAt_grow _ _⟩
  | revert offset size =>
      obtain ⟨data, hstep, hdata⟩ := State.finish_eq (s := s) ha .reverted
      exact (congrArg _ hstep).mpr ⟨hdata, rfl, Access.byteAt_grow _ _⟩

/-! ### Steps -/

theorem mem_of_opAccess? {o : Opcode} {stack : List Nat} {offset value : Nat}
    (h : opAccess? o stack = some (.store offset value)) : value ∈ stack := by
  unfold opAccess? at h
  split at h <;> cases h
  exact List.mem_cons_of_mem _ List.mem_cons_self

theorem State.mem_of_access? {p : Program} {s : State} {offset value : Nat}
    (h : s.access? p = some (.store offset value)) : value ∈ s.stack := by
  unfold access? at h
  split at h
  · split at h
    · exact mem_of_opAccess? h
    · cases h
  · cases h

theorem Access.operands_pos (a : Access) : 0 < a.operands := by
  cases a <;> exact Nat.succ_pos _

section

variable {code calldata : Bytes} {start : Storage} {made : List Access} {s t : State} {n : Nat}

/-- A step with a refused access is an exceptional halt, and leaves memory alone. -/
theorem State.step_of_refused {p : Program} {a : Access} (h : s.access? p = some a)
    (ha : a.Refused) :
    ∃ t, step p s = .halt (.faulted .memoryBound) t ∧ t.memory = s.memory := by
  obtain ⟨next, hstep⟩ := step_of_access? h
  rw [hstep, Access.perform_of_refused ha]
  exact ⟨_, rfl, rfl⟩

/-- A step with any other access serves it. -/
theorem State.Safe.step_serves {p : Program} {a : Access} (hsafe : s.Safe code start)
    (h : s.access? p = some a) (ha : ¬ a.Refused) :
    a.Serves { s with stack := s.stack.drop a.operands } (step p s) := by
  obtain ⟨next, hstep⟩ := step_of_access? h
  have hpos := a.operands_pos
  have hlen := hsafe.stack_le
  rw [hstep]
  refine Access.perform_serves ha ?_ (fun offset value heq => ?_) next
  · show (s.stack.drop a.operands).length < maxStack
    rw [List.length_drop, maxStack]
    omega
  · rw [modulus_eq]
    exact hsafe.words value (mem_of_access? (heq ▸ h))

/-- After a step, memory shows the array after the access that the step makes. -/
theorem Shows.step (h : Shows made s.memory) (hsafe : s.Safe code start)
    (hpc : s.pc < code.size) :
    (step (.load code calldata) s).Ensures fun t =>
      Shows (made ++ (s.access? (.load code calldata)).toList) t.memory := by
  cases ha : s.access? (.load code calldata) with
  | none =>
      have hkeeps := State.step_keeps (p := .load code calldata) hpc ha
      rw [Option.toList_none, List.append_nil]
      exact hkeeps.imp fun t ht => ht ▸ h
  | some a =>
      by_cases hrefused : a.Refused
      · obtain ⟨t, hhalt, hmemory⟩ := State.step_of_refused ha hrefused
        rw [hhalt]
        show Shows (made ++ [a]) t.memory
        rw [hmemory]
        exact h.snoc_refused hrefused
      · exact (hsafe.step_serves ha hrefused).2.imp fun t ht => h.snoc hrefused ht.1 ht.2

/-! ### Runs -/

/-- The accesses of one more step come last. -/
theorem Steps.accesses_succ {p : Program} (h : Steps p n s t) :
    accesses p (n + 1) s = accesses p n s ++ (t.access? p).toList := by
  induction h with
  | refl s =>
      simp only [accesses, List.nil_append]
      split <;> exact List.append_nil _
  | @head n s t u _ hstep _ ih =>
      rw [accesses, accesses, hstep]
      simp only [ih, List.append_assoc]

/-- Along a run, memory shows the array after the accesses made. -/
theorem Shows.steps (h : Shows made s.memory) (hsafe : s.Safe code start)
    (hsteps : Steps (.load code calldata) n s t) :
    Shows (made ++ accesses (.load code calldata) n s) t.memory := by
  induction hsteps generalizing made with
  | refl =>
      rw [accesses, List.append_nil]
      exact h
  | @head n s t u hpc hstep _ ih =>
      have hshows : Step.Ensures
          (fun t => Shows (made ++ (s.access? (.load code calldata)).toList) t.memory)
          (Machine.step (.load code calldata) s) := h.step hsafe hpc
      have hsafe' : Step.Ensures (State.Safe code start) (Machine.step (.load code calldata) s) :=
        hsafe.step_ensures hpc
      rw [hstep] at hshows hsafe'
      have hrest := ih hshows hsafe'
      rw [accesses, hstep]
      rwa [List.append_assoc] at hrest

end

/-- The memory of a run shows an array that is zero at first and changed by stores
only. It has shown it before every step, in as many words as the accesses so far
reach, and shows it after the step too, also if execution ends with it. An access is
an exceptional halt, which leaves memory alone, if it is to some bytes and goes past
the bound; otherwise it is served as one to the array. -/
theorem memory_shows_array (code calldata : Bytes) (storage : Storage) {n : Nat} {s : State}
    (hsteps : Steps (.load code calldata) n (initial storage) s) :
    let p := Program.load code calldata
    let made := accesses p n (initial storage)
    Shows made s.memory ∧
      (s.pc < code.size →
        ((step p s).Ensures fun t => Shows (accesses p (n + 1) (initial storage)) t.memory) ∧
        ∀ a, s.access? p = some a →
          (a.size ≠ 0 ∧ 2 ^ 24 < a.stop →
            ∃ t, step p s = .halt (.faulted .memoryBound) t ∧ t.memory = s.memory) ∧
          (a.size = 0 ∨ a.stop ≤ 2 ^ 24 →
            a.Served (bytesAfter made) (s.stack.drop a.operands) (step p s))) := by
  have hsafe := (State.Safe.initial code storage).steps hsteps
  have hshows := Shows.empty.steps (State.Safe.initial code storage) hsteps
  rw [List.nil_append] at hshows
  refine ⟨hshows, fun hpc => ⟨?_, fun a ha => ⟨State.step_of_refused ha, fun hgranted => ?_⟩⟩⟩
  · rw [hsteps.accesses_succ]
    exact hshows.step hsafe hpc
  · have hserves := hsafe.step_serves ha fun hrefused =>
      hgranted.elim hrefused.1 (Nat.not_le.mpr hrefused.2)
    rw [← hshows.byteAt_eq]
    exact hserves.1

/-- Five is stored across the boundary of two words. -/
theorem memory_shows_array_store :
    let p : Program := .load ⟨#[0x60, 5, 0x60, 1, 0x52]⟩ ⟨#[]⟩
    ∃ s t, Steps p 2 (initial ∅) s ∧ s.access? p = some (.store 1 5) ∧
      step p s = .next t ∧ Shows [.store 1 5] t.memory := by
  let p : Program := .load ⟨#[0x60, 5, 0x60, 1, 0x52]⟩ ⟨#[]⟩
  let s : State := { pc := 4, stack := [1, 5], steps := 2 }
  have hfirst : step p (initial ∅) = .next { pc := 2, stack := [5], steps := 1 } := rfl
  have hsecond : step p { pc := 2, stack := [5], steps := 1 } = .next s := rfl
  have hsteps : Steps p 2 (initial ∅) s :=
    .head (by decide) hfirst <| .head (by decide) hsecond <| .refl _
  have hpc : s.pc < p.code.size := by decide
  have hinsn : decodeAt p.code s.pc = .op .mstore := decodeAt_op rfl
  have haccess : s.access? p = some (.store 1 5) := State.access?_of_op hpc hinsn
  have hmade : accesses p 2 (initial ∅) = [] := by
    rw [accesses, hfirst]
    show accesses p 1 { pc := 2, stack := [5], steps := 1 } = []
    rw [accesses, hsecond]
    rfl
  have hspec := (memory_shows_array _ _ _ hsteps).2 hpc
  rw [hsteps.accesses_succ, haccess, hmade] at hspec
  cases hstep : step p s with
  | next t =>
      rw [hstep] at hspec
      exact ⟨s, t, hsteps, haccess, hstep, hspec.1⟩
  | halt _ _ | error _ =>
      rw [hstep] at hspec
      exact ((hspec.2 _ rfl).2 (Or.inr (by decide))).elim

end Machine

end EvmToolchain
