import EvmToolchain.Yaml.Block
import EvmToolchain.Yaml.Plain
import EvmToolchain.Yaml.Quoted
import EvmToolchain.Yaml.Tag

/-!
# EvmToolchain.Yaml.Token

The words and signs of a settings file. `Token.read` reads the one at the
front of a text that starts with neither a blank nor a comment.
-/

namespace EvmToolchain.Yaml

/-- A word or a sign of a settings file. The first four constructors are not
written: they tell where collections start and end that are laid out in lines,
and which words are keys. -/
inductive Token
  | listStart
  | mappingStart
  | collectionEnd
  /-- What follows is a key. Written if the key takes more than a line. -/
  | key
  /-- What follows is the value of a key. -/
  | value
  /-- What follows is an item of a list that is laid out in lines. -/
  | item
  | openList
  | closeList
  | openMapping
  | closeMapping
  | comma
  | documentStart
  | documentEnd
  | directive (d : Directive)
  | anchor (name : String)
  /-- The name of an anchor whose node is used again. -/
  | reference (name : String)
  | tag (name : TagName)
  /-- A text; one in quotes or in a block is never anything else. -/
  | text (s : String) (isPlain : Bool)
  /-- A text that is laid out as a block. -/
  | block (s : String)
  deriving Repr, DecidableEq

namespace Token

/-- The tokens that consist of one character in every place. -/
def ofBracket? : Char → Option Token
  | '[' => some openList
  | ']' => some closeList
  | '\x7b' => some openMapping
  | '\x7d' => some closeMapping
  | ',' => some comma
  | _ => none

/-- The tokens that need a blank behind them. Within brackets only the dash
does. -/
def ofIndicator? (inside : Bool) : List Char → Option Token
  | '-' :: rest => if atGap rest then some item else none
  | '?' :: rest => if inside || atGap rest then some key else none
  | ':' :: rest => if inside || atGap rest then some value else none
  | _ => none

/-- The tokens that only stand at the start of a line. -/
def ofMarker? (line : List Char) : Option Token :=
  if atMarker '-' line then some documentStart
  else if atMarker '.' line then some documentEnd
  else none

/-- Reads what starts with a sign of its own: a name, a tag, or a text in
quotes or in a block. -/
def readSigned (inside : Bool) (indent : Nat) (c : Char) (rest : List Char) :
    Except Error (Found Token) :=
  if c = '*' then (readName rest).map fun f => (f.map reference).behind 1
  else if c = '&' then (readName rest).map fun f => (f.map anchor).behind 1
  else if c = '!' then (TagName.read (c :: rest)).map (·.map tag)
  else if (c = '|' ∨ c = '>') ∧ inside = false then
    (Block.read (c == '>') (max 1 indent) rest).map fun f =>
      (f.map fun cs => block (String.ofList cs)).behind 1
  else if c = '\'' ∨ c = '"' then
    (Quoted.read c rest).map fun f => (f.map fun cs => text (String.ofList cs) false).behind 1
  else if Plain.starts inside (c :: rest) then
    .ok ((Plain.read inside indent (c :: rest)).map fun cs => text (String.ofList cs) true)
  else .error (.character c)

/-- Reads the token at the front of a text, and tells how many characters it
takes up. Known are whether the place is within brackets, whether it starts a
line, and the least column of a text that goes on in another line. -/
def read (inside leads : Bool) (indent : Nat) : List Char → Except Error (Found Token)
  | [] => .error .unexpected
  | c :: rest =>
    if leads && c == '%' then
      (Directive.read rest).map fun f => (f.map directive).behind 1
    else
      match if leads then ofMarker? (c :: rest) else none with
      | some t => .ok ⟨t, 3⟩
      | none =>
        match ofBracket? c, ofIndicator? inside (c :: rest) with
        | some t, _ | none, some t => .ok ⟨t, 1⟩
        | none, none => readSigned inside indent c rest

end Token

end EvmToolchain.Yaml
