import EvmToolchain.Bytes
import EvmToolchain.Text.Hex
import EvmToolchain.Yaml.Error
import EvmToolchain.Yaml.Gap

/-!
# EvmToolchain.Yaml.Tag

Names within a settings file: anchors, tags, and the shorthands (handles) that
directives declare for the first parts of tags.
-/

namespace EvmToolchain.Yaml

/-- A tag as it is written: in full, or with a handle in front. -/
structure TagName where
  handle : Option String
  suffix : String
  deriving Repr, DecidableEq

/-- A line that tells something about the document below it. -/
inductive Directive
  | version (major minor : Nat)
  | handle (name text : String)
  /-- A directive of another kind; it has no effect. -/
  | other
  deriving Repr, DecidableEq

/-- Whether a character may stand in the name of an anchor or a handle. -/
def isNameChar (c : Char) : Bool := c.isAlphanum || c == '-' || c == '_'

namespace TagName

/-- Whether a character may stand in a tag. -/
def isTagChar (c : Char) : Bool := c.isAlphanum || "-;/?:@&=+$,_.!~*'()[]%".toList.contains c

/-- Reads a stretch of characters that are written as their bytes, with a
percent sign and two hexadecimal digits each. -/
def escapedBytes : List Char → Except Error (Found (List UInt8))
  | '%' :: hi :: lo :: rest =>
    match Hex.digitValue? hi, Hex.digitValue? lo with
    | some h, some l => (escapedBytes rest).map fun r =>
      ⟨UInt8.ofNat (16 * h + l) :: r.value, r.length + 3⟩
    | _, _ => .error .malformedTag
  | '%' :: _ => .error .malformedTag
  | _ => .ok ⟨[], 0⟩

/-- Reads characters that are written as their bytes. -/
def escaped (cs : List Char) : Except Error (Found (List Char)) := do
  let found ← escapedBytes cs
  match String.fromUTF8? (ByteArray.mk found.value.toArray) with
  | some s => return ⟨s.toList, found.length⟩
  | none => throw .malformedTag

/-- The characters of a tag, after some that are to be passed over. -/
def text : (skip : Nat) → List Char → Except Error (Found (List Char))
  | _, [] => .ok ⟨[], 0⟩
  | skip + 1, _ :: rest => (text skip rest).map (·.behind 1)
  | 0, c :: rest =>
    if c = '%' then do
      let found ← escaped (c :: rest)
      let more ← text (found.length - 1) rest
      return more.cons found.value 1
    else if isTagChar c then (text 0 rest).map (·.cons [c] 1)
    else .ok ⟨[], 0⟩

/-- Reads the characters of a tag, of which there is at least one. -/
def readText (cs : List Char) : Except Error (Found String) := do
  let found ← text 0 cs
  if found.length = 0 then throw .malformedTag
  return found.map String.ofList

/-- Reads a handle: a mark, a name between two marks, or two marks. -/
def readHandle (cs : List Char) : Except Error (Found String) :=
  match cs with
  | '!' :: rest =>
    if rest.head? = some ' ' then .ok ⟨"!", 1⟩
    else
      let name := rest.takeWhile isNameChar
      if (rest.drop name.length).head? = some '!' then
        .ok ⟨String.ofList ('!' :: (name ++ ['!'])), name.length + 2⟩
      else .error .malformedTag
  | _ => .error .malformedTag

/-- Reads a tag, which starts here with a mark. A space has to follow it. -/
def read (cs : List Char) : Except Error (Found TagName) := do
  let rest := cs.drop 1
  let found ←
    if rest.head? = some '<' then do
      let found ← readText (rest.drop 1)
      unless (rest.drop (found.length + 1)).head? = some '>' do throw .malformedTag
      pure ⟨⟨none, found.value⟩, found.length + 3⟩
    else if atGap rest then pure ⟨⟨none, "!"⟩, 1⟩
    else do
      let word := rest.takeWhile fun c => !(c == ' ' || isBreak c)
      let handle ← if word.contains '!' then readHandle cs else pure ⟨"!", 1⟩
      let suffix ← readText (cs.drop handle.length)
      pure ⟨⟨some handle.value, suffix.value⟩, handle.length + suffix.length⟩
  unless atSpace (cs.drop found.length) do throw .malformedTag
  return found

end TagName

/-- Reads the name of an anchor behind the sign for it. -/
def readName (cs : List Char) : Except Error (Found String) :=
  let name := cs.takeWhile isNameChar
  let rest := cs.drop name.length
  if name.isEmpty || !(atGap rest || rest.head?.any "?:,]\x7d%@\x60".toList.contains) then
    .error .malformedName
  else .ok ⟨String.ofList name, name.length⟩

namespace Directive

/-- The number that some digits denote. -/
def natural (ds : List Char) : Nat :=
  ds.foldl (fun n c => 10 * n + (c.toNat - '0'.toNat)) 0

/-- Passes over spaces. -/
def spaces (cs : List Char) : Nat := (cs.takeWhile (· == ' ')).length

/-- Reads the number of a version: two numbers with a point between them. -/
def readVersion (cs : List Char) : Except Error (Found Directive) :=
  let before := spaces cs
  let (major, rest) := (cs.drop before).span Char.isDigit
  let minor := (rest.drop 1).takeWhile Char.isDigit
  if major.isEmpty || rest.head? != some '.' || minor.isEmpty
      || !atSpace (rest.drop (minor.length + 1)) then .error .malformedDirective
  else .ok ⟨.version (natural major) (natural minor), before + major.length + 1 + minor.length⟩

/-- Reads a handle and what it stands for. -/
def readDeclaration (cs : List Char) : Except Error (Found Directive) := do
  let before := spaces cs
  let handle ← TagName.readHandle (cs.drop before)
  let rest := cs.drop (before + handle.length)
  unless rest.head? = some ' ' do throw .malformedDirective
  let between := spaces rest
  let text ← TagName.readText (rest.drop between)
  unless atSpace (rest.drop (between + text.length)) do throw .malformedDirective
  return ⟨.handle handle.value text.value, before + handle.length + between + text.length⟩

/-- Reads a directive behind the sign for it, up to the end of its line. -/
def read (cs : List Char) : Except Error (Found Directive) := do
  let name := cs.takeWhile isNameChar
  let rest := cs.drop name.length
  if name.isEmpty || !atSpace rest then throw .malformedDirective
  let found ←
    if name = "YAML".toList then readVersion rest
    else if name = "TAG".toList then readDeclaration rest
    else pure ⟨.other, (rest.takeWhile (!isBreak ·)).length⟩
  match lineTail (rest.drop found.length) with
  | some tail => return ⟨found.value, name.length + found.length + tail⟩
  | none => throw .malformedDirective

end Directive

end EvmToolchain.Yaml
