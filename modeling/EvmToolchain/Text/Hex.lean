/-!
# EvmToolchain.Text.Hex

Hexadecimal text. Numbers are written in lower case with the prefix `0x` and
no leading zeros, a negative one with a minus sign before the prefix; byte
strings are written with two digits a byte. Reading takes either case.
-/

namespace EvmToolchain.Hex

/-- The digit for a value below sixteen. -/
def digit (d : Nat) : Char :=
  if d < 10 then Char.ofNat ('0'.toNat + d) else Char.ofNat ('a'.toNat + (d - 10))

/-- The value of a digit of either case. -/
def digitValue? (c : Char) : Option Nat :=
  if '0' ≤ c ∧ c ≤ '9' then some (c.toNat - '0'.toNat)
  else if 'a' ≤ c ∧ c ≤ 'f' then some (c.toNat - 'a'.toNat + 10)
  else if 'A' ≤ c ∧ c ≤ 'F' then some (c.toNat - 'A'.toNat + 10)
  else none

/-- The digits of a number, without leading zeros; zero has one digit. -/
def digits (n : Nat) : List Char :=
  if n < 16 then [digit n] else digits (n / 16) ++ [digit (n % 16)]

/-- A number with its prefix. -/
def ofNat (n : Nat) : String :=
  String.ofList ('0' :: 'x' :: digits n)

/-- A signed number with its prefix. -/
def ofInt (n : Int) : String :=
  if n < 0 then "-" ++ ofNat n.natAbs else ofNat n.natAbs

/-- A number with its prefix and leading zeros up to `width` digits. -/
def padded (width n : Nat) : String :=
  let ds := digits n
  String.ofList ('0' :: 'x' :: (List.replicate (width - ds.length) '0' ++ ds))

/-- Two digits a byte, without a prefix. -/
def ofBytes (bytes : List UInt8) : String :=
  String.ofList (bytes.flatMap fun b => [digit (b.toNat / 16), digit (b.toNat % 16)])

/-- The number that a nonempty sequence of digits denotes. -/
def toNat? : List Char → Option Nat
  | [] => none
  | ds => ds.foldlM (fun n c => (digitValue? c).map (16 * n + ·)) 0

/-- The bytes that pairs of digits denote; `none` if a character is no digit
or the count is odd. -/
def toBytes? : List Char → Option (List UInt8)
  | [] => some []
  | [_] => none
  | hi :: lo :: rest => do
    let h ← digitValue? hi
    let l ← digitValue? lo
    return UInt8.ofNat (16 * h + l) :: (← toBytes? rest)

/-- Why a text is no hexadecimal byte string. -/
inductive ReadError
  | nonAscii
  /-- A character is no digit, or the count of digits is odd. -/
  | malformed
  deriving Repr, DecidableEq

/-- The text without the prefix, which may be there or not. -/
def dropPrefix : List Char → List Char
  | '0' :: 'x' :: rest | '0' :: 'X' :: rest => rest
  | s => s

/-- Reads a byte string, with or without the prefix. -/
def readBytes (s : String) : Except ReadError (List UInt8) :=
  let ds := dropPrefix s.toList
  if ds.any fun c => 128 ≤ c.toNat then .error .nonAscii
  else
    match toBytes? ds with
    | some bytes => .ok bytes
    | none => .error .malformed

theorem digitValue?_digit {d : Nat} (h : d < 16) : digitValue? (digit d) = some d := by
  have : ∀ d : Fin 16, digitValue? (digit d) = some d.val := by decide
  exact this ⟨d, h⟩

end EvmToolchain.Hex
