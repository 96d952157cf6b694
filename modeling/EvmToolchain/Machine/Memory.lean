import EvmToolchain.Bytes
import EvmToolchain.Limits

/-!
# EvmToolchain.Machine.Memory

The byte memory of the machine. It starts empty, grows in whole words with
zeros to cover every access, and never beyond a fixed bound: an access past
the bound fails and leaves the memory as it is.
-/

namespace EvmToolchain

/-- The memory of the machine. -/
abbrev Memory := Bytes

namespace Memory

/-- The least whole number of words, in bytes, that covers `stop` bytes. -/
def roundUp (stop : Nat) : Nat := (stop + (wordBytes - 1)) / wordBytes * wordBytes

/-- The memory grown to cover all positions below `stop`. -/
def grow (m : Memory) (stop : Nat) : Memory :=
  if m.size < stop then m ++ Bytes.zeros (roundUp stop - m.size) else m

/-- The memory grown to cover all positions below `stop`, unless that is past
the bound. -/
def reserve? (m : Memory) (stop : Nat) : Option Memory :=
  if stop ≤ maxMemory then some (m.grow stop) else none

/-- The memory grown for a read of `size` bytes. Reading nothing is no access. -/
def touch? (m : Memory) (offset size : Nat) : Option Memory :=
  if size = 0 then some m else m.reserve? (offset + size)

/-- The `size` bytes from `offset` on, of a memory that covers them. -/
def slice (m : Memory) (offset size : Nat) : Bytes :=
  if size = 0 then ByteArray.empty else m.extract offset (offset + size)

theorem le_roundUp (stop : Nat) : stop ≤ roundUp stop := by
  simp only [roundUp, wordBytes]
  omega

theorem size_grow (m : Memory) (stop : Nat) :
    (m.grow stop).size = if m.size < stop then roundUp stop else m.size := by
  unfold grow
  split
  · next h =>
    have := le_roundUp stop
    rw [ByteArray.size_append, Bytes.size_zeros]
    omega
  · rfl

/-- Growing shows no new contents: memory reads as zero past its end. -/
@[simp] theorem byteAt_grow (m : Memory) (stop i : Nat) :
    Bytes.byteAt (m.grow stop) i = Bytes.byteAt m i := by
  unfold grow
  split
  · rw [Bytes.byteAt_append]
    split
    · rfl
    · next h => rw [Bytes.byteAt_zeros, Bytes.byteAt_of_size_le (Nat.not_lt.mp h)]
  · rfl

end Memory

end EvmToolchain
