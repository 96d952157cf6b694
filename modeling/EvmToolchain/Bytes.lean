import EvmToolchain.Numeric.BigEndian

/-!
# EvmToolchain.Bytes

Byte buffers: code, call data and memory.

Everything on the machine that reads bytes reads zeros past the end of the
buffer, so a buffer is seen as the function `Bytes.byteAt`, which is defined at
every position. `Bytes.window` reads a stretch of that function.
-/

namespace EvmToolchain

/-- A buffer of bytes. -/
abbrev Bytes := ByteArray

namespace Bytes

/-- The buffer with the given contents. -/
def ofList (l : List UInt8) : Bytes := ⟨l.toArray⟩

/-- The contents as a list. -/
def contents (b : Bytes) : List UInt8 := b.data.toList

/-- The byte at a position; zero past the end. -/
def byteAt (b : Bytes) (i : Nat) : UInt8 :=
  if h : i < b.size then b[i] else 0

/-- The `count` bytes from `start` on, with zeros past the end. -/
def window (b : Bytes) (start count : Nat) : List UInt8 :=
  (List.range count).map fun i => b.byteAt (start + i)

/-- The big-endian number in the `count` bytes from `start` on. -/
def number (b : Bytes) (start count : Nat) : Nat :=
  BigEndian.toNat (b.window start count)

/-- `count` zero bytes. -/
def zeros (count : Nat) : Bytes := ⟨Array.replicate count 0⟩

/-- The buffer with the given bytes written over those from `start` on. -/
def overwrite (b : Bytes) (start : Nat) (new : List UInt8) : Bytes :=
  (ofList new).copySlice 0 b start new.length

/-! ### Sizes and positions -/

@[simp] theorem size_ofList (l : List UInt8) : (ofList l).size = l.length := by
  simp [ofList, ByteArray.size]

@[simp] theorem contents_ofList (l : List UInt8) : (ofList l).contents = l := rfl

@[simp] theorem length_contents (b : Bytes) : b.contents.length = b.size :=
  Array.length_toList

@[simp] theorem size_zeros (count : Nat) : (zeros count).size = count := by
  simp [zeros, ByteArray.size]

@[simp] theorem length_window (b : Bytes) (start count : Nat) :
    (b.window start count).length = count := by
  simp [window]

theorem byteAt_of_lt {b : Bytes} {i : Nat} (h : i < b.size) : b.byteAt i = b[i] := by
  simp [Bytes.byteAt, h]

theorem byteAt_of_size_le {b : Bytes} {i : Nat} (h : b.size ≤ i) : b.byteAt i = 0 := by
  simp [Bytes.byteAt, Nat.not_lt.mpr h]

theorem byteAt_eq_getD (b : Bytes) (i : Nat) : b.byteAt i = b.contents.getD i 0 := by
  rw [List.getD_eq_getElem?_getD]
  by_cases h : i < b.size
  · rw [byteAt_of_lt h, List.getElem?_eq_getElem (by simpa using h)]
    rfl
  · rw [byteAt_of_size_le (Nat.not_lt.mp h), List.getElem?_eq_none (by simpa using h)]
    rfl

@[simp] theorem byteAt_ofList (l : List UInt8) (i : Nat) : (ofList l).byteAt i = l.getD i 0 := by
  simp [byteAt_eq_getD]

@[simp] theorem byteAt_zeros (count i : Nat) : (zeros count).byteAt i = 0 := by
  simp only [byteAt_eq_getD, contents, zeros, Array.toList_replicate, List.getD_eq_getElem?_getD,
    List.getElem?_replicate]
  split <;> rfl

theorem byteAt_append (a b : Bytes) (i : Nat) :
    (a ++ b).byteAt i = if i < a.size then a.byteAt i else b.byteAt (i - a.size) := by
  have hc : (a ++ b).contents = a.contents ++ b.contents := by
    simp [contents, ByteArray.data_append]
  simp only [byteAt_eq_getD, hc, List.getD_eq_getElem?_getD, List.getElem?_append, length_contents]
  split <;> rfl

theorem getElem?_window (b : Bytes) (start count i : Nat) :
    (b.window start count)[i]? = if i < count then some (b.byteAt (start + i)) else none := by
  by_cases h : i < count <;> simp [window, h]

/-- Two windows agree when the buffers do on the positions they cover. -/
theorem window_congr {a b : Bytes} {i j count : Nat}
    (h : ∀ k < count, a.byteAt (i + k) = b.byteAt (j + k)) : a.window i count = b.window j count := by
  refine List.map_congr_left fun k hk => ?_
  exact h k (List.mem_range.1 hk)

/-! ### Overwriting -/

theorem contents_overwrite (b : Bytes) (start : Nat) (new : List UInt8) :
    (b.overwrite start new).contents
      = b.contents.take start ++ new ++ b.contents.drop (start + new.length) := by
  have hnew : (new.toArray.extract 0 (0 + new.length)).toList = new := by
    rw [Array.toList_extract, List.extract, Nat.sub_zero, Nat.zero_add, List.drop_zero,
      List.take_length]
  have hfront : (b.data.extract 0 start).toList = b.contents.take start := by
    rw [Array.toList_extract, List.extract, Nat.sub_zero, List.drop_zero]
    rfl
  have hback : (b.data.extract (start + new.length) b.data.size).toList
      = b.contents.drop (start + new.length) := by
    rw [Array.toList_extract, List.extract]
    exact List.take_of_length_le (Nat.le_of_eq (by rw [List.length_drop, Array.length_toList]))
  have hcount : min new.length (new.toArray.size - 0) = new.length := by
    rw [List.size_toArray, Nat.sub_zero, Nat.min_self]
  show (b.data.extract 0 start ++ new.toArray.extract 0 (0 + new.length)
    ++ b.data.extract (start + min new.length (new.toArray.size - 0)) b.data.size).toList = _
  rw [hcount, Array.toList_append, Array.toList_append, hfront, hnew, hback]

/-- Overwriting within a buffer keeps its size. -/
theorem size_overwrite {b : Bytes} {start : Nat} {new : List UInt8}
    (h : start + new.length ≤ b.size) : (b.overwrite start new).size = b.size := by
  rw [← length_contents, contents_overwrite]
  simp only [List.length_append, List.length_take, List.length_drop, length_contents]
  omega

/-- Overwriting changes just the positions that it covers. -/
theorem byteAt_overwrite {b : Bytes} {start : Nat} {new : List UInt8}
    (h : start + new.length ≤ b.size) (i : Nat) :
    (b.overwrite start new).byteAt i =
      if start ≤ i ∧ i < start + new.length then new.getD (i - start) 0 else b.byteAt i := by
  simp only [byteAt_eq_getD, contents_overwrite, List.getD_eq_getElem?_getD]
  rw [List.append_assoc, List.getElem?_append, List.getElem?_append, List.length_take,
    length_contents, Nat.min_eq_left (by omega)]
  by_cases h₁ : i < start
  · rw [if_pos h₁, if_neg (by omega), List.getElem?_take_of_lt h₁]
  · rw [if_neg h₁]
    by_cases h₂ : i - start < new.length
    · rw [if_pos h₂, if_pos (by omega)]
    · rw [if_neg h₂, if_neg (by omega), List.getElem?_drop]
      congr 2
      omega

end Bytes

end EvmToolchain
