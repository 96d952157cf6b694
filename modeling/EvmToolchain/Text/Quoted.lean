import EvmToolchain.Text.Hex
import EvmToolchain.Text.Printable

/-!
# EvmToolchain.Text.Quoted

Text in quotes. Single quotes are used unless the text holds a single quote
and no double quote. The quote in use and the backslash are escaped, as are
the characters that are not printable. Byte strings are written likewise, with
all bytes escaped that are no printable ASCII characters.
-/

namespace EvmToolchain.Quoted

/-- The hexadecimal digits of a number, with leading zeros up to `width`. -/
def paddedDigits (width n : Nat) : List Char :=
  let ds := Hex.digits n
  List.replicate (width - ds.length) '0' ++ ds

/-- A character between quotes of the given kind. -/
def escape (quote c : Char) : List Char :=
  if c = quote ∨ c = '\\' then ['\\', c]
  else if c = '\t' then ['\\', 't']
  else if c = '\n' then ['\\', 'n']
  else if c = '\r' then ['\\', 'r']
  else if Printable.isPrintable c then [c]
  else if c.toNat < 0x100 then '\\' :: 'x' :: paddedDigits 2 c.toNat
  else if c.toNat < 0x10000 then '\\' :: 'u' :: paddedDigits 4 c.toNat
  else '\\' :: 'U' :: paddedDigits 8 c.toNat

/-- The quote to put around a text. -/
def quoteFor (s : List Char) : Char :=
  if s.contains '\'' && !s.contains '"' then '"' else '\''

/-- The text in quotes. -/
def encode (s : String) : String :=
  let cs := s.toList
  let quote := quoteFor cs
  String.ofList (quote :: (cs.flatMap (escape quote) ++ [quote]))

/-- A byte between quotes of the given kind. -/
def escapeByte (quote : Char) (b : UInt8) : List Char :=
  if b.toNat < 0x80 then escape quote (Char.ofNat b.toNat)
  else '\\' :: 'x' :: paddedDigits 2 b.toNat

/-- The bytes in quotes. -/
def encodeBytes (bs : List UInt8) : String :=
  let quote := quoteFor (bs.map fun b => Char.ofNat b.toNat)
  String.ofList ('b' :: quote :: (bs.flatMap (escapeByte quote) ++ [quote]))

end EvmToolchain.Quoted
