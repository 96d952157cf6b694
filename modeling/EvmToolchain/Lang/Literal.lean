import EvmToolchain.Limits
import EvmToolchain.Text.Quoted

/-!
# EvmToolchain.Lang.Literal

Number literals, kept as the digits that stand in the program. A literal has
at least one digit, and only digits of its radix.
-/

namespace EvmToolchain

/-- How the digits of a literal are to be read. -/
inductive Radix
  | decimal
  | hexadecimal
  deriving Repr, DecidableEq

namespace Radix

/-- The base of the number system. -/
def base : Radix → Nat
  | decimal => 10
  | hexadecimal => 16

/-- The value of a digit. -/
def digitValue? (r : Radix) (c : Char) : Option Nat :=
  (Hex.digitValue? c).filter (· < r.base)

/-- Whether a text is a nonempty sequence of digits. -/
def accepts (r : Radix) (s : String) : Bool :=
  !s.toList.isEmpty && s.toList.all fun c => (r.digitValue? c).isSome

end Radix

/-- A number literal. -/
structure Literal where
  radix : Radix
  digits : String
  wellFormed : radix.accepts digits = true
  deriving Repr, DecidableEq

/-- Digits that form no literal. -/
structure MalformedDigits where
  digits : String
  deriving Repr, DecidableEq

/-- The wording of the error for malformed digits. -/
def MalformedDigits.message (e : MalformedDigits) : String :=
  "Malformed literal digits: " ++ Quoted.encode e.digits

namespace Literal

/-- The literal with the given digits. -/
def ofDigits (radix : Radix) (digits : String) : Except MalformedDigits Literal :=
  if h : radix.accepts digits = true then .ok ⟨radix, digits, h⟩ else .error ⟨digits⟩

/-- The number that a literal denotes. -/
def value (l : Literal) : Nat :=
  l.digits.toList.foldl
    (fun n c => l.radix.base * n + ((l.radix.digitValue? c).getD 0)) 0

/-- Whether the digits are too many to be read as a decimal number. -/
def isTooLong (l : Literal) : Bool :=
  match l.radix with
  | .decimal => maxDigits < l.digits.length
  | .hexadecimal => false

end Literal

end EvmToolchain
