import EvmToolchain.Numeric.Binary64
import EvmToolchain.Text.Numeral

/-!
# EvmToolchain.Text.Fraction

Reading decimal fractions from text, as the nearest binary floating-point
number. A point and an exponent may be left out. The names of what is infinite
or undefined are read too, in either case of the letters.
-/

namespace EvmToolchain.Fraction

/-- The number that some digits denote. -/
def natural (ds : List Char) : Nat :=
  ds.foldl (fun n c => 10 * n + (c.toNat - '0'.toNat)) 0

/-- The exponent of ten, which may be left out. -/
def exponent? : List Char → Option Int
  | [] => some 0
  | e :: rest =>
    let (negative, ds) := Numeral.splitSign rest
    if (e = 'e' ∨ e = 'E') ∧ !ds.isEmpty ∧ ds.all Char.isDigit then
      some (Numeral.signed negative (natural ds))
    else none

/-- Splits off the digits behind a point. -/
def splitPart : List Char → List Char × List Char
  | '.' :: rest => rest.span Char.isDigit
  | rest => ([], rest)

/-- Reads a decimal fraction without a sign. It has a digit before or behind
the point. -/
def decimal? (cs : List Char) : Option Decimal :=
  let (whole, rest) := cs.span Char.isDigit
  let (part, tail) := splitPart rest
  if whole.isEmpty && part.isEmpty then none
  else (exponent? tail).map fun e => ⟨false, natural (whole ++ part), e - part.length⟩

/-- Reads the magnitude of a number, with the sign given. -/
def magnitude? (negative : Bool) (cs : List Char) : Option Binary64 :=
  let word := String.ofList (cs.map Char.toLower)
  if word = "inf" ∨ word = "infinity" then some (.infinite negative)
  else if word = "nan" then some .undefined
  else (decimal? cs).map fun d => .ofDecimal { d with negative }

/-- Reads a number. -/
def read? (s : List Char) : Option Binary64 :=
  let (negative, cs) := Numeral.splitSign (Numeral.normalize s)
  magnitude? negative cs

end EvmToolchain.Fraction
