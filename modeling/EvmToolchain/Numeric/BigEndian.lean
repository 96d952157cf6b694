/-!
# EvmToolchain.Numeric.BigEndian

Natural numbers as big-endian byte strings: `toNat` reads one, `ofNat` writes
one of a given width, and `width` is the shortest width that loses nothing.
-/

namespace EvmToolchain.BigEndian

/-- The number that a big-endian byte string denotes. -/
def toNat (bytes : List UInt8) : Nat :=
  bytes.foldl (fun n b => 256 * n + b.toNat) 0

/-- The `width` low-order bytes of `n`, most significant first. -/
def ofNat : (width n : Nat) → List UInt8
  | 0, _ => []
  | width + 1, n => ofNat width (n / 256) ++ [UInt8.ofNat n]

/-- How many numbers `width` bytes can tell apart. -/
def capacity (width : Nat) : Nat := Nat.pow 256 width

/-- The least number of bytes that hold `n`; zero for `0`. -/
def width (n : Nat) : Nat :=
  if n = 0 then 0 else width (n / 256) + 1

@[simp] theorem capacity_zero : capacity 0 = 1 := rfl

theorem capacity_succ (width : Nat) : capacity (width + 1) = capacity width * 256 := rfl

theorem capacity_pos (width : Nat) : 0 < capacity width := Nat.pow_pos (by decide)

@[simp] theorem toNat_nil : toNat [] = 0 := rfl

theorem toNat_append_singleton (bytes : List UInt8) (b : UInt8) :
    toNat (bytes ++ [b]) = 256 * toNat bytes + b.toNat := by
  simp [toNat]

@[simp] theorem length_ofNat (width n : Nat) : (ofNat width n).length = width := by
  induction width generalizing n with
  | zero => rfl
  | succ width ih => simp [ofNat, ih]

/-- Writing keeps the value modulo the capacity of the width. -/
theorem toNat_ofNat (width n : Nat) : toNat (ofNat width n) = n % capacity width := by
  induction width generalizing n with
  | zero => simp [ofNat, Nat.mod_one]
  | succ width ih =>
    have h : n % capacity (width + 1) = n % 256 + 256 * (n / 256 % capacity width) := by
      rw [capacity_succ, Nat.mul_comm, Nat.mod_mul]
    simp only [ofNat, toNat_append_singleton, ih, UInt8.toNat_ofNat', h]
    omega

theorem toNat_lt (bytes : List UInt8) : toNat bytes < capacity bytes.length := by
  rw [← List.reverse_reverse bytes]
  induction bytes.reverse with
  | nil => simp
  | cons b rest ih =>
    have hb : b.toNat < 256 := b.toNat_lt
    simp only [List.reverse_cons, toNat_append_singleton, List.length_append,
      List.length_singleton, capacity_succ]
    omega

/-- A number fits a width exactly when the least width does. -/
theorem width_le_iff (n k : Nat) : width n ≤ k ↔ n < capacity k := by
  induction k generalizing n with
  | zero =>
    unfold width
    split <;> simp [*]
  | succ k ih =>
    unfold width
    split
    · next h => exact ⟨fun _ => h ▸ capacity_pos _, fun _ => Nat.zero_le _⟩
    · rw [Nat.add_le_add_iff_right, ih, Nat.div_lt_iff_lt_mul (by decide), capacity_succ]

end EvmToolchain.BigEndian
