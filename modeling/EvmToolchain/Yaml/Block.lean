import EvmToolchain.Yaml.Error
import EvmToolchain.Yaml.Gap

/-!
# EvmToolchain.Yaml.Block

Texts that are laid out as a block of indented lines. A header tells what
becomes of the line breaks: whether single ones within the text are folded,
and which ones at the end are kept. The indentation is that of the first line
unless the header tells it too.
-/

namespace EvmToolchain.Yaml.Block

/-- Which line breaks at the end of a block are kept. -/
inductive Chomping
  | strip
  /-- One is kept. -/
  | clip
  | keep
  deriving Repr, DecidableEq

/-- What the header of a block tells. -/
structure Header where
  chomping : Chomping := .clip
  /-- The indentation, beyond that of what the block belongs to. -/
  indentation : Option Nat := none
  deriving Repr, DecidableEq

namespace Header

/-- The chomping that a sign stands for. -/
def chomping? : Char → Option Chomping
  | '+' => some .keep
  | '-' => some .strip
  | _ => none

/-- The indentation that a digit stands for. -/
def indentation? (c : Char) : Option Nat :=
  if c.isDigit then some (c.toNat - '0'.toNat) else none

/-- The header at the front of a line, which has the two parts in either
order. -/
def ofLine : List Char → Found Header
  | [] => ⟨{}, 0⟩
  | c :: rest =>
    match chomping? c, indentation? c with
    | some chomping, _ =>
      match rest.head?.bind indentation? with
      | some n => ⟨⟨chomping, some n⟩, 2⟩
      | none => ⟨⟨chomping, none⟩, 1⟩
    | none, some n =>
      match rest.head?.bind chomping? with
      | some chomping => ⟨⟨chomping, some n⟩, 2⟩
      | none => ⟨⟨.clip, some n⟩, 1⟩
    | none, none => ⟨{}, 0⟩

/-- Reads the line of the header, of which nothing but a comment is left
behind the header itself. -/
def read (cs : List Char) : Except Error (Found Header) :=
  let found := ofLine cs
  let tail := cs.drop found.length
  if found.value.indentation = some 0 ∨ atSpace tail = false then .error .malformedBlockHeader
  else
    match lineTail tail with
    | some length => .ok ⟨found.value, found.length + length⟩
    | none => .error .malformedBlockHeader

end Header

/-- A line and the break at its end, which the last line does not have. -/
structure Line where
  content : List Char
  ending : Option Char
  deriving Repr, DecidableEq

namespace Line

/-- The number of characters of a line. -/
def length (l : Line) : Nat := l.content.length + (if l.ending.isSome then 1 else 0)

/-- The number of spaces at the start of a line. -/
def indentation (l : Line) : Nat := (l.content.takeWhile (· == ' ')).length

/-- Whether the line holds nothing but spaces, and ends in a break. -/
def isBlank (l : Line) : Bool := l.ending.isSome && l.content.all (· == ' ')

/-- The lines of a text. -/
def ofText : List Char → List Line
  | [] => [⟨[], none⟩]
  | c :: rest =>
    if isBreak c then ⟨[], some c⟩ :: ofText rest
    else
      match ofText rest with
      | l :: more => { l with content := c :: l.content } :: more
      | [] => [⟨[c], none⟩]

end Line

/-- The indentation of a block that starts with the given lines: that of its
first line that holds more than spaces, or of a longer blank line before it. -/
def indentationOf : List Line → Nat
  | [] => 0
  | l :: rest =>
    if l.isBlank then max l.content.length (indentationOf rest) else l.indentation

/-- A line of a block that has been read: the break at its end, and whether it
starts with a word. -/
structure Previous where
  ending : Option Char
  startsWithWord : Bool

/-- The text between two lines of a block, with some blank lines between them. -/
def joint (folds : Bool) (previous : Option Previous) (blanks : List Char) (nextStartsWithWord : Bool) :
    List Char :=
  match previous with
  | none => blanks
  | some p =>
    if folds && p.ending == some '\n' && p.startsWithWord && nextStartsWithWord then
      if blanks.isEmpty then [' '] else blanks
    else p.ending.toList ++ blanks

/-- The text at the end of a block. -/
def ending (chomping : Chomping) (previous : Option Previous) (blanks : List Char) : List Char :=
  let last := (previous.bind (·.ending)).toList
  match chomping with
  | .strip => []
  | .clip => last
  | .keep => last ++ blanks

/-- Whether a line of a block starts with a word. -/
def startsWithWord (content : List Char) : Bool := !content.head?.any Yaml.isBlank

/-- Reads the lines of a block of the given indentation. Given is what has
been read: the last line, and the breaks of the blank lines since. -/
def body (folds : Bool) (chomping : Chomping) (indent : Nat) (previous : Option Previous)
    (blanks : List Char) : List Line → Found (List Char)
  | [] => ⟨ending chomping previous blanks, 0⟩
  | l :: rest =>
    if l.isBlank && l.content.length ≤ indent then
      (body folds chomping indent previous (blanks ++ l.ending.toList) rest).behind l.length
    else if indent ≤ l.indentation && indent < l.content.length then
      let content := l.content.drop indent
      let starts := startsWithWord content
      (body folds chomping indent (some ⟨l.ending, starts⟩) [] rest).cons
        (joint folds previous blanks starts ++ content) l.length
    else ⟨ending chomping previous blanks, 0⟩

/-- Reads a block behind the sign that starts it. `least` is the least
indentation that it can have. -/
def read (folds : Bool) (least : Nat) (cs : List Char) : Except Error (Found (List Char)) := do
  let header ← Header.read cs
  let lines := Line.ofText (cs.drop header.length)
  let indent := match header.value.indentation with
    | some n => least + n - 1
    | none => max least (indentationOf lines)
  return (body folds header.value.chomping indent none [] lines).behind header.length

end EvmToolchain.Yaml.Block
