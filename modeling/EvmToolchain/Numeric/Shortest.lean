import EvmToolchain.Numeric.Binary64

/-!
# EvmToolchain.Numeric.Shortest

The text of a binary floating-point number: the fewest decimal digits that
read back to it, and of several such the nearest to it.

The digits are searched on ever finer decimal grids. On each grid only the two
neighbours of the number can be the nearest that reads back.
-/

namespace EvmToolchain.Binary64

/-- The quotient of the number `significand · 2 ^ exponent` and a power of ten,
as numerator and denominator. -/
def onGrid (significand : Nat) (exponent grid : Int) : Nat × Nat :=
  (significand * twoTo exponent.toNat * Decimal.tenTo (-grid).toNat,
    twoTo (-exponent).toNat * Decimal.tenTo grid.toNat)

/-- The power of ten, by its exponent, below which the number
`significand · 2 ^ exponent` lies and the next smaller one does not. All
numbers of the format lie above `10 ^ -330`. -/
def decimalScale (significand : Nat) (exponent : Int) : Int :=
  let (num, den) := onGrid significand exponent (-330)
  ((Decimal.digitsOf (num / den)).length : Int) - 330

/-- The nearest decimal with `count` digits that reads back to the number, if
there is one. -/
def atLength? (negative : Bool) (significand : Nat) (exponent : Int) (count : Nat) :
    Option Decimal :=
  let grid := decimalScale significand exponent - count
  let (num, den) := onGrid significand exponent grid
  let below := num / den
  let nearer := roundDiv num den
  let other := if nearer = below then below + 1 else below
  ([nearer, other].map fun digits => ⟨negative, digits, grid⟩).find? fun d =>
    ofDecimal d = finite negative significand exponent

/-- A finite number written out in full. -/
def exact (negative : Bool) (significand : Nat) (exponent : Int) : Decimal :=
  if 0 ≤ exponent then ⟨negative, significand * twoTo exponent.toNat, 0⟩
  else ⟨negative, significand * Nat.pow 5 (-exponent).toNat, exponent⟩

/-- The shortest decimal that reads back to a finite number. Seventeen digits
are always enough. -/
def shortest (negative : Bool) (significand : Nat) (exponent : Int) : Decimal :=
  if significand = 0 then ⟨negative, 0, 0⟩
  else
    ((List.range 17).findSome? fun n => atLength? negative significand exponent (n + 1)).getD
      (exact negative significand exponent)

/-- What is found reads back. -/
theorem ofDecimal_of_atLength? {negative : Bool} {significand : Nat} {exponent : Int}
    {count : Nat} {d : Decimal} (h : atLength? negative significand exponent count = some d) :
    ofDecimal d = finite negative significand exponent := by
  simpa using List.find?_some h

instance : ToString Binary64 where
  toString
    | finite negative significand exponent => toString (shortest negative significand exponent)
    | infinite negative => if negative then "-inf" else "inf"
    | undefined => "nan"

end EvmToolchain.Binary64
