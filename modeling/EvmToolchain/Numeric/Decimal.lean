/-!
# EvmToolchain.Numeric.Decimal

Decimal fractions, and how they are written: positionally while the decimal
exponent is moderate, else with an exponent of at least two digits. There is
always a digit after the point of a positional number.
-/

namespace EvmToolchain

/-- The number `± significand · 10 ^ exponent`. -/
structure Decimal where
  negative : Bool
  significand : Nat
  exponent : Int
  deriving Repr, DecidableEq

namespace Decimal

/-- The number whose digits are a one and `n` zeros. -/
def tenTo (n : Nat) : Nat := Nat.pow 10 n

/-- The decimal digits of a number, most significant first. -/
def digitsOf (n : Nat) : List Char := Nat.toDigits 10 n

/-- The digits without trailing zeros, and how many zeros there were. -/
def stripZeros (n : Nat) : Nat × Nat :=
  let ds := (digitsOf n).reverse
  let zeros := (ds.takeWhile (· == '0')).length
  (n / tenTo zeros, zeros)

/-- The same number with a significand that ends in no zero; zero has the
exponent zero. -/
def normalize (d : Decimal) : Decimal :=
  if d.significand = 0 then { d with exponent := 0 }
  else
    let (significand, zeros) := stripZeros d.significand
    { d with significand, exponent := d.exponent + zeros }

/-- The layout of the exponent: a sign, and two digits at least. -/
def exponentText (e : Int) : String :=
  let ds := digitsOf e.natAbs
  (if e < 0 then "e-" else "e+")
    ++ String.ofList (List.replicate (2 - ds.length) '0' ++ ds)

/-- The text of the magnitude of a normalized number. The decimal point stands
after the first digit in scientific layout, which is used below `10 ^ -4` and
from `10 ^ 16` on. -/
def magnitudeText (d : Decimal) : String :=
  let ds := digitsOf d.significand
  let point : Int := ds.length + d.exponent
  if d.significand = 0 then "0.0"
  else if -4 < point ∧ point ≤ 16 then
    if point ≤ 0 then "0." ++ String.ofList (List.replicate (-point).toNat '0' ++ ds)
    else if ds.length ≤ point then
      String.ofList (ds ++ List.replicate (point.toNat - ds.length) '0') ++ ".0"
    else
      String.ofList (ds.take point.toNat) ++ "." ++ String.ofList (ds.drop point.toNat)
  else
    let tail := ds.drop 1
    String.ofList (ds.take 1) ++ (if tail.isEmpty then "" else "." ++ String.ofList tail)
      ++ exponentText (point - 1)

instance : ToString Decimal where
  toString d := (if d.negative then "-" else "") ++ d.normalize.magnitudeText

end Decimal

end EvmToolchain
