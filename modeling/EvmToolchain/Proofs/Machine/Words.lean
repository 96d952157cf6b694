import EvmToolchain.Machine.Step
import EvmToolchain.Proofs.Lang.Semantics
import Mathlib.Algebra.Group.Nat.Defs

/-!
# EvmToolchain.Proofs.Machine.Words

Words of 256 bits and the natural numbers that the machine computes with.

The machine keeps a word as the number it denotes. Its arithmetic is that of the
language on the words, and its memory is read and written as the language says,
wherever it has been grown far enough.
-/

namespace EvmToolchain

namespace Semantics

theorem modulus_eq : Word.modulus = 2 ^ 256 := by decide

@[simp] theorem wrap_toNat (v : Word) : Word.wrap v.toNat = v.toNat := by
  refine Word.wrap_of_lt ?_
  rw [modulus_eq]
  exact v.isLt

theorem toNat_ofNat {n : Nat} (h : n < Word.modulus) : (BitVec.ofNat 256 n).toNat = n := by
  rw [BitVec.toNat_ofNat, ← modulus_eq]
  exact Nat.mod_eq_of_lt h

theorem toNat_ofInt (v : Int) : (BitVec.ofInt 256 v).toNat = Word.ofInt v := by
  rw [BitVec.toNat_ofInt, ← modulus_eq, Word.ofInt]

theorem toNat_eq_zero {v : Word} : v.toNat = 0 ↔ v = 0 := by
  rw [← BitVec.toNat_inj]
  rfl

theorem toNat_truth (b : Bool) : (truth b).toNat = Word.ofBool b := by
  cases b <;> rfl

/-! ### Arithmetic -/

theorem toNat_add (a b : Word) : (a + b).toNat = Word.add a.toNat b.toNat := by
  rw [BitVec.toNat_add, ← modulus_eq]
  rfl

theorem toNat_sub (a b : Word) : (a - b).toNat = Word.sub a.toNat b.toNat := by
  have ha := a.isLt
  have hb := b.isLt
  rw [BitVec.toNat_sub, Word.sub, Word.ofInt, modulus_eq]
  omega

theorem toNat_mul (a b : Word) : (a * b).toNat = Word.mul a.toNat b.toNat := by
  rw [BitVec.toNat_mul, ← modulus_eq]
  rfl

theorem toNat_div (a b : Word) : (arithmetic .divide a b).toNat = Word.div a.toNat b.toNat := by
  rw [arithmetic, Word.div]
  split
  · next h =>
    rw [h]
    exact (Nat.div_zero _).symm
  · exact BitVec.toNat_udiv

theorem toNat_mod (a b : Word) : (arithmetic .remainder a b).toNat = Word.mod a.toNat b.toNat := by
  rw [arithmetic, Word.mod]
  by_cases h : b = 0
  · rw [if_pos h, if_pos (toNat_eq_zero.mpr h)]
    rfl
  · rw [if_neg h, if_neg fun hb => h (toNat_eq_zero.mp hb)]
    exact BitVec.toNat_umod

theorem toNat_equals (a b : Word) :
    (arithmetic .equals a b).toNat = Word.eq a.toNat b.toNat := by
  rw [arithmetic, toNat_truth, Word.eq]
  simp only [BitVec.toNat_inj]

theorem toNat_lessThan (a b : Word) :
    (arithmetic .lessThan a b).toNat = Word.lt a.toNat b.toNat :=
  toNat_truth _

theorem toNat_greaterThan (a b : Word) :
    (arithmetic .greaterThan a b).toNat = Word.gt a.toNat b.toNat :=
  toNat_truth _

theorem toNat_isZero (v : Word) : (truth (v = 0)).toNat = Word.isZero v.toNat := by
  rw [toNat_truth, Word.isZero]
  simp only [toNat_eq_zero]

theorem truth_eq_zero (b : Bool) : truth b = 0 ↔ b = false := by
  cases b <;> decide

/-! ### Memory -/

/-- The word in a stretch of a buffer. -/
theorem toNat_readWord (b : Bytes) (offset : Nat) :
    (readWord b.byteAt offset).toNat = b.number offset wordBytes := by
  refine toNat_ofNat ?_
  have h := BigEndian.toNat_lt (b.window offset wordBytes)
  rwa [Bytes.length_window] at h

/-- Writing a word to a buffer that covers its positions. -/
theorem byteAt_overwrite_word {b : Bytes} {offset : Nat} (h : offset + wordBytes ≤ b.size)
    (v : Word) :
    (b.overwrite offset (BigEndian.ofNat wordBytes v.toNat)).byteAt
      = writeWord b.byteAt offset v := by
  have hlen := BigEndian.length_ofNat wordBytes v.toNat
  funext i
  rw [Bytes.byteAt_overwrite (by rw [hlen]; exact h), hlen, writeWord]

end Semantics

namespace Memory

theorem le_size_grow (m : Memory) (stop : Nat) : stop ≤ (m.grow stop).size := by
  have := le_roundUp stop
  rw [size_grow]
  split <;> omega

/-- The bytes in a stretch of memory. -/
theorem contents_slice {m : Memory} {offset size : Nat} (h : size = 0 ∨ offset + size ≤ m.size) :
    (m.slice offset size).contents = (List.range size).map fun k => m.byteAt (offset + k) := by
  unfold slice
  split
  · next hsize =>
    rw [hsize]
    rfl
  · next hsize =>
    have hle : offset + size ≤ m.size := h.resolve_left hsize
    refine List.ext_getElem ?_ fun i hi hi' => ?_
    · simp only [Bytes.length_contents, ByteArray.size_extract, List.length_map, List.length_range]
      omega
    · rw [List.length_map, List.length_range] at hi'
      rw [List.getElem_map, List.getElem_range, Bytes.byteAt_of_lt (by omega)]
      exact ByteArray.getElem_extract (by simpa using hi)

end Memory

end EvmToolchain
