import EvmToolchain.Yaml.Token

/-!
# EvmToolchain.Yaml.Layout

The tokens of a settings file with its layout made explicit.

Outside of brackets collections are laid out in lines: the items of a list, or
the keys of a mapping, stand in one column, and what belongs to them stands
further to the right. So a layout keeps the columns of the collections that
are open, and closes those to the right of a token that starts further left.

Only a colon shows that what stands before it is a key. Each token that may be
a key is remembered until then (`Candidate`); it has to be on the same line as
the colon and not too far from it. Tokens are only ever added at the end, and
the one that turns out to be a key is marked.
-/

namespace EvmToolchain.Yaml

/-- A place in a text. -/
structure Place where
  index : Nat := 0
  line : Nat := 0
  column : Nat := 0
  deriving Repr, DecidableEq

/-- A place in a text, and what is left of the text there. -/
structure Cursor where
  rest : List Char
  place : Place := {}
  deriving Repr

namespace Cursor

/-- The mark that may stand at the start of a text. It takes up no column. -/
def byteOrderMark : Char := '\ufeff'

/-- The place behind the next character. -/
def advance (c : Cursor) : Cursor :=
  match c.rest with
  | [] => c
  | ch :: rest =>
    let p := c.place
    if isBreak ch then ⟨rest, p.index + 1, p.line + 1, 0⟩
    else if ch = byteOrderMark then ⟨rest, p.index + 1, p.line, p.column⟩
    else ⟨rest, p.index + 1, p.line, p.column + 1⟩

/-- The place behind some characters. -/
def skip : Nat → Cursor → Cursor
  | 0, c => c
  | n + 1, c => skip n c.advance

/-- The start of a text. -/
def ofText (cs : List Char) : Cursor :=
  let c : Cursor := { rest := cs }
  if cs.head? = some byteOrderMark then c.advance else c

theorem rest_advance (c : Cursor) : c.advance.rest = c.rest.drop 1 := by
  unfold advance
  split
  · next h => simp [h]
  · next h =>
    simp only [h, List.drop_succ_cons, List.drop_zero]
    split
    · rfl
    split <;> rfl

theorem rest_skip (n : Nat) (c : Cursor) : (c.skip n).rest = c.rest.drop n := by
  induction n generalizing c with
  | zero => rfl
  | succ n ih => rw [skip, ih, rest_advance, List.drop_drop, Nat.add_comm]

theorem length_rest_skip_le (n : Nat) (c : Cursor) : (c.skip n).rest.length ≤ c.rest.length := by
  rw [rest_skip, List.length_drop]
  exact Nat.sub_le _ _

theorem length_rest_advance_lt {c : Cursor} (h : c.rest ≠ []) :
    c.advance.rest.length < c.rest.length := by
  rw [rest_advance, List.length_drop]
  have := List.length_pos_iff.2 h
  omega

end Cursor

/-- The blanks, comments and line breaks before a token: whether there is a
line break among them, and how many characters they take up. -/
def gapBefore (comment : Bool) : List Char → Found Bool
  | [] => ⟨false, 0⟩
  | c :: rest =>
    if isBreak c then ⟨true, (gapBefore false rest).length + 1⟩
    else if comment || c == '#' then (gapBefore true rest).behind 1
    else if c = ' ' then (gapBefore false rest).behind 1
    else ⟨false, 0⟩

/-- What a token turns out to be. -/
inductive Mark
  | none
  | key
  /-- The first key of a mapping that is laid out in lines. -/
  | firstKey
  deriving Repr, DecidableEq

/-- A token that may be a key: its place, and its number among the tokens. -/
structure Candidate where
  place : Place
  number : Nat
  /-- Whether the token can be nothing else, since it stands in the column of
  the keys. -/
  isRequired : Bool
  deriving Repr, DecidableEq

/-- The greatest distance between the start of a key and its colon, in
characters. -/
def maxKeyLength : Nat := 1024

/-- Whether a candidate can be a key of which the colon stands at a place. -/
def Candidate.reaches (k : Candidate) (p : Place) : Bool :=
  k.place.line == p.line && p.index - k.place.index ≤ maxKeyLength

/-- The tokens read so far, and what is known about the place behind them. -/
structure Layout where
  tokens : Array (Token × Mark) := #[]
  /-- The columns of the open collections, the innermost first. -/
  columns : List Nat := []
  /-- The candidate within the innermost brackets. -/
  candidate : Option Candidate := none
  /-- The candidates around the open brackets, the innermost first. -/
  outer : List (Option Candidate) := []
  /-- Whether a key, or a collection, may start here. -/
  keyAllowed : Bool := true

namespace Layout

/-- Whether some bracket is open. -/
def inside (s : Layout) : Bool := !s.outer.isEmpty

/-- Adds a token. -/
def push (s : Layout) (t : Token) : Layout := { s with tokens := s.tokens.push (t, .none) }

/-- Gives up a candidate, which must not be required. -/
def drop : Option Candidate → Except Error (Option Candidate)
  | none => .ok none
  | some k => if k.isRequired then .error .unfinishedKey else .ok none

/-- Gives up the candidate within the innermost brackets. -/
def forget (s : Layout) : Except Error Layout :=
  (drop s.candidate).map fun candidate => { s with candidate }

/-- Gives up a candidate from which the place is too far away. -/
def dropStale (p : Place) (k : Option Candidate) : Except Error (Option Candidate) :=
  if k.all (·.reaches p) then .ok k else drop k

/-- Takes the next token, which stands at a place, for a candidate. -/
def remember (p : Place) (s : Layout) : Except Error Layout :=
  if s.keyAllowed then do
    let s ← s.forget
    let isRequired := !s.inside && s.columns.head? == some p.column
    return { s with candidate := some ⟨p, s.tokens.size, isRequired⟩ }
  else .ok s

/-- Closes the collections of the given columns that lie to the right of a
column. -/
def closeRight (column : Nat) (tokens : Array (Token × Mark)) :
    List Nat → Array (Token × Mark) × List Nat
  | [] => (tokens, [])
  | c :: rest =>
    if column < c then closeRight column (tokens.push (.collectionEnd, .none)) rest
    else (tokens, c :: rest)

/-- Closes the collections that a token in a column does not belong to. -/
def unwind (column : Nat) (s : Layout) : Layout :=
  if s.inside then s
  else
    let (tokens, columns) := closeRight column s.tokens s.columns
    { s with tokens, columns }

/-- Closes all collections that are laid out in lines. -/
def unwindAll (s : Layout) : Layout :=
  if s.inside then s
  else
    let ends := Array.replicate s.columns.length (Token.collectionEnd, Mark.none)
    { s with tokens := s.tokens ++ ends, columns := [] }

/-- Whether a collection that starts in a column is a new one. -/
def isDeeper (column : Nat) (s : Layout) : Bool := s.columns.head?.all (· < column)

/-- Opens a collection with the given token if the column is not that of an
open one. -/
def openBlock (column : Nat) (t : Token) (s : Layout) : Layout :=
  if s.isDeeper column then { s.push t with columns := column :: s.columns } else s

/-- Adds a sign that starts an item, a key or a value. Outside of brackets it
may open a collection, if one may start there. -/
def addIndicator (p : Place) (opening t : Token) (keyAllowed : Bool) (s : Layout) :
    Except Error Layout := do
  let s ←
    if s.inside then pure s
    else if s.keyAllowed then pure (s.openBlock p.column opening)
    else throw .misplacedIndicator
  let s ← s.forget
  return { s.push t with keyAllowed }

/-- Marks a candidate as a key. -/
def markKey (k : Candidate) (s : Layout) : Layout :=
  let opens := !s.inside && s.isDeeper k.place.column
  { s with
    tokens := s.tokens.modify k.number fun e => (e.1, if opens then .firstKey else .key)
    columns := if opens then k.place.column :: s.columns else s.columns
    candidate := none }

/-- Adds a token that stands at a place. -/
def add (p : Place) (t : Token) (s : Layout) : Except Error Layout :=
  match t with
  | .directive _ | .documentStart | .documentEnd => do
    let s ← s.unwindAll.forget
    return { s.push t with keyAllowed := false }
  | .openList | .openMapping => do
    let s ← s.remember p
    return { s.push t with candidate := none, outer := s.candidate :: s.outer, keyAllowed := true }
  | .closeList | .closeMapping => do
    let s ← s.forget
    match s.outer with
    | [] => throw .unexpected
    | candidate :: outer => return { s.push t with candidate, outer, keyAllowed := false }
  | .comma | .block _ => do
    let s ← s.forget
    return { s.push t with keyAllowed := true }
  | .item => s.addIndicator p .listStart .item true
  | .key => s.addIndicator p .mappingStart .key (!s.inside)
  | .value =>
    match s.candidate with
    | some k => return { (s.markKey k).push .value with keyAllowed := false }
    | none => s.addIndicator p .mappingStart .value (!s.inside)
  | _ => do
    let s ← s.remember p
    return { s.push t with keyAllowed := false }

/-- Comes to the place of the next token, behind a gap that holds a line break
or not. -/
def arrive (p : Place) (newLine : Bool) (s : Layout) : Except Error Layout := do
  let candidate ← dropStale p s.candidate
  let outer ← s.outer.mapM (dropStale p)
  let keyAllowed := s.keyAllowed || (newLine && !s.inside)
  return { s with candidate, outer, keyAllowed }.unwind p.column

/-- The end of the text. -/
def finish (s : Layout) : Except Error Layout := s.unwindAll.forget

/-- The layout of a text, from a place on. -/
def ofCursor (s : Layout) (c : Cursor) : Except Error Layout :=
  let gap := gapBefore false c.rest
  let start := c.skip gap.length
  match s.arrive start.place gap.value with
  | .error e => .error e
  | .ok s =>
    if _h : start.rest = [] then s.finish
    else
      let indent := s.columns.head?.elim 0 (· + 1)
      match Token.read s.inside (start.place.column == 0) indent start.rest with
      | .error e => .error e
      | .ok found =>
        match s.add start.place found.value with
        | .error e => .error e
        | .ok s => ofCursor s (start.advance.skip (found.length - 1))
termination_by c.rest.length
decreasing_by
  exact Nat.lt_of_le_of_lt (Cursor.length_rest_skip_le _ _)
    (Nat.lt_of_lt_of_le (Cursor.length_rest_advance_lt (by assumption)) (Cursor.length_rest_skip_le _ _))

end Layout

/-- The tokens that a marked one stands for. -/
def Token.marked : Token × Mark → List Token
  | (t, .none) => [t]
  | (t, .key) => [.key, t]
  | (t, .firstKey) => [.mappingStart, .key, t]

/-- Whether a character may occur in a settings file. -/
def isAllowed (c : Char) : Bool :=
  let n := c.toNat
  n == 0x09 || n == 0x0a || n == 0x0d || (0x20 ≤ n && n ≤ 0x7e) || n == 0x85
    || (0xa0 ≤ n && n != 0xfffe && n != 0xffff)

/-- The tokens of a text. -/
def Token.ofText (text : String) : Except Error (List Token) := do
  let cs := text.toList
  if let some c := cs.find? (!isAllowed ·) then throw (.character c)
  let layout ← Layout.ofCursor {} (Cursor.ofText (unifyBreaks cs))
  return layout.tokens.toList.flatMap Token.marked

end EvmToolchain.Yaml
