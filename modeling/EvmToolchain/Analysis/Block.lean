import EvmToolchain.Instruction.Decoding

/-!
# EvmToolchain.Analysis.Block

Ranges of addresses, and the split of code into basic blocks.

A block ends before a jump destination and after an instruction that never
falls through. Blocks are contiguous and cover the code.
-/

namespace EvmToolchain

/-- A nonempty half-open range of addresses, which may lie anywhere. -/
structure AddressRange where
  start : Int
  stop : Int
  start_lt_stop : start < stop
  deriving Repr, DecidableEq

/-- Bounds between which no address lies. -/
structure EmptyRange where
  start : Int
  stop : Int
  deriving Repr, DecidableEq

/-- The wording of the error for empty ranges. -/
def EmptyRange.message (e : EmptyRange) : String :=
  "Empty block [" ++ toString e.start ++ ", " ++ toString e.stop ++ ")"

namespace AddressRange

/-- The range with the given bounds. -/
def ofBounds (start stop : Int) : Except EmptyRange AddressRange :=
  if h : start < stop then .ok ⟨start, stop, h⟩ else .error ⟨start, stop⟩

/-- The number of addresses in the range. -/
def size (r : AddressRange) : Nat := (r.stop - r.start).toNat

/-- The number of addresses in the range, if it is a possible length. -/
def length? (r : AddressRange) : Option Nat :=
  if r.size < lengthBound then some r.size else none

/-- Whether an address lies in the range. -/
def encloses (r : AddressRange) (pc : Int) : Bool := r.start ≤ pc && pc < r.stop

end AddressRange

/-- A stretch of code from `start` up to, but not including, `stop`. -/
structure Block where
  start : Nat
  stop : Nat
  start_lt_stop : start < stop
  deriving Repr, DecidableEq

namespace Block

/-- The addresses of the block. -/
def range (b : Block) : AddressRange where
  start := b.start
  stop := b.stop
  start_lt_stop := by
    have := b.start_lt_stop
    omega

/-- Whether an address lies in the block. -/
def encloses (b : Block) (pc : Int) : Bool := b.range.encloses pc

/-- The block between two offsets, if anything lies between them. -/
def between (start stop : Nat) : List Block :=
  if h : start < stop then [⟨start, stop, h⟩] else []

/-- The blocks of code of the given size from `start` on, where `start` begins
a block and the list holds the instructions that are still to come. -/
def split (size start : Nat) : List Located → List Block
  | [] => between start size
  | l :: rest =>
    let first := if l.instruction.mnemonic = .jumpdest then l.offset else start
    let next := min l.next size
    between start first ++
      if l.instruction.isTerminator then between first next ++ split size next rest
      else split size first rest

/-- The basic blocks of some code. -/
def ofCode (code : Bytes) : List Block := split code.size 0 (listing code)

theorem encloses_iff {b : Block} {pc : Int} : b.encloses pc = true ↔ b.start ≤ pc ∧ pc < b.stop := by
  unfold encloses AddressRange.encloses range
  rw [Bool.and_eq_true, decide_eq_true_iff, decide_eq_true_iff]

end Block

end EvmToolchain
