import EvmToolchain.Yaml.Gap

/-!
# EvmToolchain.Yaml.Plain

Texts without quotes. Such a text ends before a colon that is set off by a
blank, before a comment, and within brackets before a comma, a question mark
or a bracket. It goes on in further lines, outside of brackets only as long as
these are indented far enough.
-/

namespace EvmToolchain.Yaml.Plain

/-- The signs that end a text within brackets. -/
def flowSigns : List Char := ",?[]\x7b\x7d".toList

/-- The signs before which a colon ends a key within brackets. -/
def valueSigns : List Char := ",[]\x7b\x7d".toList

/-- The signs that start something else than a text. -/
def indicators : List Char := "-?:,[]\x7b\x7d#&*!|>'\"%@`".toList

/-- Whether a word may not go on with the given characters. `inside` tells
whether the text stands within brackets. -/
def ends (inside : Bool) : List Char → Bool
  | [] => true
  | c :: rest =>
    isBlank c || isBreak c
      || (c == ':' && (atGap rest || (inside && rest.head?.any valueSigns.contains)))
      || (inside && flowSigns.contains c)

/-- Whether a text starts here. A dash, a question mark and a colon start one
if more follows, the last two not within brackets. -/
def starts (inside : Bool) : List Char → Bool
  | [] => false
  | c :: rest =>
    !(isBlank c || isBreak c || indicators.contains c)
      || (!atGap rest && (c == '-' || (!inside && (c == '?' || c == ':'))))

/-- The rest of a text. Given are the gap before the next character, how many
characters the gap takes up, and the column after it, which counts if the gap
reaches into another line. A gap belongs to the text only if a word follows
it; lines of a text that stands outside of brackets are indented by `indent`. -/
def rest (inside : Bool) (indent : Nat) (gap : Gap) (column pending : Nat) :
    List Char → Found (List Char)
  | [] => ⟨[], 0⟩
  | c :: cs =>
    if c = ' ' then rest inside indent (gap.withBlank c) (column + 1) (pending + 1) cs
    else if isBreak c then
      if atAnyMarker cs then ⟨[], 0⟩
      else rest inside indent (gap.withBreak c) 0 (pending + 1) cs
    else if ends inside (c :: cs) || (!gap.isEmpty && c == '#')
        || (gap.crossesLine && !inside && column < indent) then ⟨[], 0⟩
    else (rest inside indent .empty 0 0 cs).cons (gap.text ++ [c]) (pending + 1)

/-- Reads a text, which starts here. -/
def read (inside : Bool) (indent : Nat) : List Char → Found (List Char)
  | [] => ⟨[], 0⟩
  | c :: cs => (rest inside indent .empty 0 0 cs).cons [c] 1

end EvmToolchain.Yaml.Plain
