import EvmToolchain.Text.Hex
import EvmToolchain.Yaml.Error
import EvmToolchain.Yaml.Gap

/-!
# EvmToolchain.Yaml.Quoted

Texts in quotes, up to the closing quote. Between single quotes a quote is
written twice; between double quotes a backslash starts an escape, also before
a line break, which then does not count.
-/

namespace EvmToolchain.Yaml.Quoted

/-- What is written by a backslash and what follows it. -/
inductive Escape
  | character (c : Char)
  /-- A line break that does not count. -/
  | join
  deriving Repr, DecidableEq

/-- The character that a backslash and a letter stand for. -/
def letter? : Char → Option Char
  | '0' => some '\x00'
  | 'a' => some '\x07'
  | 'b' => some '\x08'
  | 't' => some '\t'
  | '\t' => some '\t'
  | 'n' => some '\n'
  | 'v' => some '\x0b'
  | 'f' => some '\x0c'
  | 'r' => some '\r'
  | 'e' => some '\x1b'
  | ' ' => some ' '
  | '"' => some '"'
  | '/' => some '/'
  | '\\' => some '\\'
  | 'N' => some '\u0085'
  | '_' => some '\u00a0'
  | 'L' => some '\u2028'
  | 'P' => some '\u2029'
  | _ => none

/-- The number of hexadecimal digits behind a letter. -/
def digitCount? : Char → Option Nat
  | 'x' => some 2
  | 'u' => some 4
  | 'U' => some 8
  | _ => none

/-- The character of a number. Numbers that belong to halves of characters are
read as the replacement character. -/
def numbered (n : Nat) : Except Error Char :=
  if 0x80000000 ≤ n then .error .escapeOverflow
  else if 0x10ffff < n then .error .escapeRange
  else if 0xd800 ≤ n ∧ n < 0xe000 then .ok '\ufffd'
  else .ok (Char.ofNat n)

/-- Reads what follows a backslash. -/
def escape : List Char → Except Error (Found Escape)
  | [] => .error .malformedEscape
  | c :: rest =>
    if isBreak c then .ok ⟨.join, 1⟩
    else
      match letter? c, digitCount? c with
      | some e, _ => .ok ⟨.character e, 1⟩
      | none, some count =>
        match Hex.toNat? (rest.take count) with
        | some n =>
          if rest.length < count then .error .malformedEscape
          else (numbered n).map fun e => ⟨.character e, 1 + count⟩
        | none => .error .malformedEscape
      | none, none => .error .malformedEscape

/-- The text up to the closing quote. The gap before the next character, and
the number of characters that are to be passed over, are given. -/
def body (quote : Char) (gap : Gap) : (skip : Nat) → List Char → Except Error (Found (List Char))
  | _, [] => .error .unclosedQuote
  | skip + 1, _ :: rest => (body quote gap skip rest).map (·.behind 1)
  | 0, c :: rest =>
    if isBlank c then (body quote (gap.withBlank c) 0 rest).map (·.behind 1)
    else if isBreak c then
      if atAnyMarker rest then .error .markerInQuotes
      else (body quote (gap.withBreak c) 0 rest).map (·.behind 1)
    else if c = quote then
      if quote = '\'' ∧ rest.head? = some quote then
        (body quote .empty 1 rest).map (·.cons (gap.text ++ [quote]) 1)
      else .ok ⟨gap.text, 1⟩
    else if quote = '"' ∧ c = '\\' then
      match escape rest with
      | .error e => .error e
      | .ok ⟨.character e, length⟩ =>
        (body quote .empty length rest).map (·.cons (gap.text ++ [e]) 1)
      | .ok ⟨.join, length⟩ =>
        if atAnyMarker (rest.drop length) then .error .markerInQuotes
        else (body quote (.joined []) length rest).map (·.cons gap.text 1)
    else (body quote .empty 0 rest).map (·.cons (gap.text ++ [c]) 1)

/-- Reads a text behind its opening quote. -/
def read (quote : Char) (cs : List Char) : Except Error (Found (List Char)) :=
  body quote .empty 0 cs

end EvmToolchain.Yaml.Quoted
