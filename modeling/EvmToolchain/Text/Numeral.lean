import EvmToolchain.Limits
import EvmToolchain.Text.CharClass
import EvmToolchain.Text.Hex

/-!
# EvmToolchain.Text.Numeral

Reading integers from text. Digits may come from any script, one underscore
may stand between two digits, and white space around the number is ignored.
`decimal?` reads a signed decimal number, `inBase?` one in a base that is a
power of two; `literal?` takes the prefixes `0x`, `0o` and `0b` and then
refuses decimal numbers with leading zeros. A decimal number has a limited
count of digits.
-/

namespace EvmToolchain.Numeral

/-- The value of a sequence of digits in which single underscores may stand
between two digits. `pending` tells whether a digit has to come next. -/
def digits? (base : Nat) (pending : Bool) (acc : Nat) : List Char → Option Nat
  | [] => if pending then none else some acc
  | '_' :: rest => if pending then none else digits? base true acc rest
  | c :: rest => do
    let d ← Hex.digitValue? c
    if d < base then digits? base false (base * acc + d) rest else none

/-- The value of a sequence of decimal digits that is not too long. -/
def decimalDigits? (s : List Char) : Option Nat :=
  if maxDigits < s.countP (· != '_') then none else digits? 10 true 0 s

/-- The text with digits of other scripts replaced by ASCII digits, without
the surrounding white space. -/
def normalize (s : List Char) : List Char :=
  (CharClass.trim CharClass.isNumeralMargin s).map fun c =>
    match CharClass.decimalDigit? c with
    | some d => Hex.digit d
    | none => c

/-- Splits off a sign: whether the number is negative, and the rest. -/
def splitSign : List Char → Bool × List Char
  | '-' :: rest => (true, rest)
  | '+' :: rest => (false, rest)
  | s => (false, s)

/-- The magnitude, with the sign given. -/
def signed (negative : Bool) (n : Nat) : Int :=
  if negative then -(n : Int) else n

/-- Reads a signed decimal number. -/
def decimal? (s : List Char) : Option Int :=
  let (negative, ds) := splitSign (normalize s)
  (decimalDigits? ds).map (signed negative)

/-- Reads digits after a base prefix, which one underscore may follow. -/
def afterPrefix? (base : Nat) : List Char → Option Nat
  | '_' :: rest => digits? base true 0 rest
  | s => digits? base true 0 s

/-- The base that the letter of a prefix names. -/
def prefixBase? (c : Char) : Option Nat :=
  if c = 'x' ∨ c = 'X' then some 16
  else if c = 'o' ∨ c = 'O' then some 8
  else if c = 'b' ∨ c = 'B' then some 2
  else none

/-- Reads an unsigned number in the base that its prefix names. A decimal
number with a leading zero must be zero. -/
def magnitude? : List Char → Option Nat
  | '0' :: rest =>
    match rest.head?.bind prefixBase? with
    | some base => afterPrefix? base (rest.drop 1)
    | none => (decimalDigits? ('0' :: rest)).filter (· = 0)
  | s => decimalDigits? s

/-- Reads a signed number in the base that its prefix names. -/
def literal? (s : List Char) : Option Int :=
  let (negative, ds) := splitSign (normalize s)
  (magnitude? ds).map (signed negative)

/-- Reads an unsigned number in a base, with or without the prefix of it. -/
def magnitudeIn? (base : Nat) : List Char → Option Nat
  | '0' :: rest =>
    if rest.head?.bind prefixBase? = some base then afterPrefix? base (rest.drop 1)
    else digits? base true 0 ('0' :: rest)
  | s => digits? base true 0 s

/-- Reads a signed number in a base that is a power of two. -/
def inBase? (base : Nat) (s : List Char) : Option Int :=
  let (negative, ds) := splitSign (normalize s)
  (magnitudeIn? base ds).map (signed negative)

end EvmToolchain.Numeral
