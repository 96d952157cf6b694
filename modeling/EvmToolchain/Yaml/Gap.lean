/-!
# EvmToolchain.Yaml.Gap

Blanks and line breaks of a settings file.

Texts run over several lines. The gap between two words keeps its blanks if it
lies within a line; else the blanks at the ends of the lines are dropped and
the breaks are folded: a single one becomes a space, and of several the first
one is dropped (`Gap.text`).

A text is brought into a form first in which all ways to end a line are
written alike (`unifyBreaks`).
-/

namespace EvmToolchain.Yaml

/-- Writes every line break as a line feed, except for the two separators that
are kept apart. -/
def unifyBreaks : List Char → List Char
  | [] => []
  | c :: rest =>
    if c = '\r' then
      if rest.head? = some '\n' then unifyBreaks rest else '\n' :: unifyBreaks rest
    else if c = '\u0085' then '\n' :: unifyBreaks rest
    else c :: unifyBreaks rest

/-- Whether a character ends a line. -/
def isBreak (c : Char) : Bool := c == '\n' || c == '\u2028' || c == '\u2029'

/-- Whether a character separates words of a line. -/
def isBlank (c : Char) : Bool := c == ' ' || c == '\t'

/-- Whether a word ends here. -/
def atGap : List Char → Bool
  | [] => true
  | c :: _ => isBlank c || isBreak c

/-- Whether a word ends here, with tabs being part of words. -/
def atSpace : List Char → Bool
  | [] => true
  | c :: _ => c == ' ' || isBreak c

/-- Whether a line starts with the given document marker. -/
def atMarker (sign : Char) (line : List Char) : Bool :=
  line.take 3 == List.replicate 3 sign && atGap (line.drop 3)

/-- Whether a line starts with a document marker. -/
def atAnyMarker (line : List Char) : Bool := atMarker '-' line || atMarker '.' line

/-- What stands between two words of a text. -/
inductive Gap
  /-- Blanks within a line. -/
  | blanks (cs : List Char)
  /-- Line breaks, of which the first one may be folded. -/
  | folded (first : Char) (more : List Char)
  /-- The line breaks after one that does not count. -/
  | joined (more : List Char)
  deriving Repr, DecidableEq

namespace Gap

/-- No gap at all. -/
def empty : Gap := blanks []

/-- Whether there is no gap at all. -/
def isEmpty : Gap → Bool
  | blanks [] => true
  | _ => false

/-- Whether the gap reaches into another line. -/
def crossesLine : Gap → Bool
  | blanks _ => false
  | _ => true

/-- The gap with another blank. At the start of a line blanks do not count. -/
def withBlank (c : Char) : Gap → Gap
  | blanks cs => blanks (cs ++ [c])
  | g => g

/-- The gap with another line break. -/
def withBreak (c : Char) : Gap → Gap
  | blanks _ => folded c []
  | folded first more => folded first (more ++ [c])
  | joined more => joined (more ++ [c])

/-- The text of the gap. -/
def text : Gap → List Char
  | blanks cs => cs
  | folded first more =>
    if first ≠ '\n' then first :: more
    else if more.isEmpty then [' ']
    else more
  | joined more => more

end Gap

/-- What a reader finds at the front of a text, and the number of characters
that it takes up. -/
structure Found (α : Type) where
  value : α
  length : Nat
  deriving Repr

namespace Found

/-- The same find, made into something else. -/
def map {α β : Type} (f : α → β) (r : Found α) : Found β := ⟨f r.value, r.length⟩

/-- The same find when more characters stand in front of it. -/
def behind {α : Type} (length : Nat) (r : Found α) : Found α := ⟨r.value, length + r.length⟩

/-- A text with more in front, for which some characters have been taken. -/
def cons (cs : List Char) (length : Nat) (r : Found (List Char)) : Found (List Char) :=
  ⟨cs ++ r.value, length + r.length⟩

end Found

/-- The blanks and the comment at the end of a line, which have to reach up to
the end of it. The line break is taken too. -/
def lineTail (cs : List Char) : Option Nat :=
  let spaces := (cs.takeWhile (· == ' ')).length
  let rest := cs.drop spaces
  let comment := if rest.head? = some '#' then (rest.takeWhile (!isBreak ·)).length else 0
  match rest.drop comment with
  | [] => some (spaces + comment)
  | c :: _ => if isBreak c then some (spaces + comment + 1) else none

end EvmToolchain.Yaml
