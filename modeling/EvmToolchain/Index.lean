/-!
# EvmToolchain.Index

Positions in a sequence that may be counted from either end: a negative one
counts from the end, `-1` being the last.
-/

namespace EvmToolchain.Index

/-- The position that an index denotes in a sequence of `size` items. -/
def resolve? (size : Nat) (i : Int) : Option Nat :=
  if 0 ≤ i then
    if i < size then some i.toNat else none
  else if 0 ≤ size + i then some (size + i).toNat
  else none

/-- The cut that an index denotes in a sequence of `size` items. An index
beyond an end denotes that end. -/
def clamp (size : Nat) (i : Int) : Nat :=
  if 0 ≤ i then min i.toNat size else (size + i).toNat

theorem lt_of_resolve? {size j : Nat} {i : Int} (h : resolve? size i = some j) : j < size := by
  unfold resolve? at h
  split at h
  · split at h
    · cases h
      omega
    · cases h
  · split at h
    · cases h
      omega
    · cases h

theorem clamp_le (size : Nat) (i : Int) : clamp size i ≤ size := by
  unfold clamp
  split
  · exact Nat.min_le_right _ _
  · omega

end EvmToolchain.Index
