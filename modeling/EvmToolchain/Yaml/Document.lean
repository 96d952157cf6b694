import EvmToolchain.Limits
import EvmToolchain.Yaml.Layout
import EvmToolchain.Yaml.Node

/-!
# EvmToolchain.Yaml.Document

The node that a settings file writes down.

A file holds one document, which may stand between markers and have directives
in front. A node is a text, a collection in brackets or one that is laid out
in lines, with an anchor and a tag in front of it; or the name of an anchor
whose node is used again.

The readers take a bound on the depth of their calls. A reader makes at most
three calls before one that is given fewer tokens, so a few times the number
of tokens is enough (`depthBound`).
-/

namespace EvmToolchain.Yaml

/-- What is left of a file, and what has been declared in it. -/
structure Reading where
  tokens : List Token
  /-- The nodes of the anchors. One that has begun and not ended has none yet. -/
  anchors : List (String × Option Node) := []
  /-- What the handles of tags stand for. -/
  handles : List (String × String) := []
  /-- How many collections have begun and not ended. -/
  level : Nat := 0

/-- Reads something off the front of a file. -/
abbrev Reader (α : Type) := StateT Reading (Except Error) α

namespace Reader

/-- The next token, if there is one. -/
def peek : Reader (Option Token) := do return (← get).tokens.head?

/-- Passes over a token. -/
def advance : Reader Unit := modify fun r => { r with tokens := r.tokens.drop 1 }

/-- Whether the next token is one of some. -/
def nextIn (ts : List Token) : Reader Bool := do return (← peek).any ts.contains

/-- Passes over the next token if it is the given one. -/
def take (t : Token) : Reader Bool := do
  if ← nextIn [t] then
    advance
    return true
  else return false

/-- Passes over the next token, which has to be the given one. -/
def expect (t : Token) : Reader Unit := do unless ← take t do throw .unexpected

/-- Reads the inside of a collection. -/
def inside {α : Type} (x : Reader α) : Reader α := do
  if maxNesting ≤ (← get).level then throw .nesting
  modify fun r => { r with level := r.level + 1 }
  let a ← x
  modify fun r => { r with level := r.level - 1 }
  return a

/-! ### Anchors and tags -/

/-- What stands in front of a node. -/
structure Properties where
  anchor : Option String := none
  tag : Option TagName := none

/-- Reads an anchor, if there is one. -/
def anchor? : Reader (Option String) := do
  match ← peek with
  | some (.anchor name) =>
    advance
    return some name
  | _ => return none

/-- Reads a tag, if there is one. -/
def tag? : Reader (Option TagName) := do
  match ← peek with
  | some (.tag name) =>
    advance
    return some name
  | _ => return none

/-- Reads an anchor and a tag, in either order. Both may be left out. -/
def properties : Reader Properties := do
  match ← anchor? with
  | some name => return ⟨some name, ← tag?⟩
  | none =>
    match ← tag? with
    | some tag => return ⟨← anchor?, some tag⟩
    | none => return {}

/-- The full name of a tag. -/
def fullTag (t : TagName) : Reader String := do
  match t.handle with
  | none => return t.suffix
  | some handle =>
    match (← get).handles.find? (·.1 == handle) with
    | some (_, stem) => return stem ++ t.suffix
    | none => throw (.unknownHandle handle)

/-- The tag that tells nothing about a node. -/
def isSilent (tag : Option String) : Bool := tag.all (· == "!")

/-- A text as a node. Without a tag its looks tell what it is, if it may have
any. -/
def scalarNode (tag : Option String) (s : String) (isPlain : Bool) : Node :=
  let byLooks := (tag.isNone && isPlain) || tag == some "!"
  match tag with
  | some t => .scalar (if byLooks then .kind (Kind.ofPlain s) else Tag.ofName t) s
  | none => .scalar (.kind (if byLooks then Kind.ofPlain s else .text)) s

/-- The tag of a collection. -/
def collectionTag (tag : Option String) (usual : Kind) : Tag :=
  if isSilent tag then .kind usual else Tag.ofName (tag.getD "!")

/-- Begins the node of an anchor. -/
def openAnchor (name : String) : Reader Unit := do
  if (← get).anchors.any (·.1 == name) then throw (.repeatedAnchor name)
  modify fun r => { r with anchors := (name, none) :: r.anchors }

/-- Ends the node of an anchor. -/
def closeAnchor (name : String) (n : Node) : Reader Node := do
  let n := n.tie name
  modify fun r =>
    { r with anchors := r.anchors.map fun a => if a.1 == name then (name, some n) else a }
  return n

/-- The node of an anchor. -/
def useAnchor (name : String) : Reader Node := do
  match (← get).anchors.find? (·.1 == name) with
  | some (_, some n) => return n
  | some (_, none) => return .knot name
  | none => throw (.unknownAlias name)

/-! ### Nodes -/

mutual

/-- Reads a node. Outside of brackets it may be laid out in lines, below a key
also as a list in the column of the key. -/
def node (isBlock isValue : Bool) : (depth : Nat) → Reader Node
  | 0 => throw .unexpected
  | depth + 1 => do
    match ← peek with
    | some (.reference name) =>
      advance
      useAnchor name
    | _ =>
      let p ← properties
      let tag ← p.tag.mapM fullTag
      match p.anchor with
      | none => content isBlock isValue p.tag.isSome tag depth
      | some name =>
        openAnchor name
        closeAnchor name (← content isBlock isValue true tag depth)

/-- Reads a node behind its anchor and its tag, after which it may be left
out. -/
def content (isBlock isValue mayBeEmpty : Bool) (tag : Option String) : (depth : Nat) → Reader Node
  | 0 => throw .unexpected
  | depth + 1 => do
    let t ← peek
    match t with
    | some (.text s isPlain) =>
      advance
      return scalarNode tag s isPlain
    | some (.block s) =>
      advance
      return scalarNode tag s false
    | some .openList =>
      advance
      return .list (collectionTag tag .list) (← inside (flowItems true depth))
    | some .openMapping =>
      advance
      return .mapping (collectionTag tag .mapping) (← inside (flowEntries true depth))
    | _ =>
      if isValue && t == some .item then
        return .list (collectionTag tag .list) (← inside (bareItems depth))
      else if isBlock && t == some .listStart then
        advance
        return .list (collectionTag tag .list) (← inside (blockItems depth))
      else if isBlock && t == some .mappingStart then
        advance
        return .mapping (collectionTag tag .mapping) (← inside (blockEntries depth))
      else if mayBeEmpty then return scalarNode tag "" true
      else throw .unexpected

/-- Reads a node in front of one of the given tokens, where it may be left
out. -/
def optional (isBlock isValue : Bool) (stops : List Token) : (depth : Nat) → Reader Node
  | 0 => throw .unexpected
  | depth + 1 => do
    if ← nextIn stops then return .null
    else node isBlock isValue depth

/-- Reads the items of a list that is laid out in lines, up to its end. -/
def blockItems : (depth : Nat) → Reader (List Node)
  | 0 => throw .unexpected
  | depth + 1 => do
    if ← take .item then
      let n ← optional true false [.item, .collectionEnd] depth
      return n :: (← blockItems depth)
    else
      expect .collectionEnd
      return []

/-- Reads the items of a list that stands in the column of its key. -/
def bareItems : (depth : Nat) → Reader (List Node)
  | 0 => throw .unexpected
  | depth + 1 => do
    if ← take .item then
      let n ← optional true false [.item, .key, .value, .collectionEnd] depth
      return n :: (← bareItems depth)
    else return []

/-- Reads the entries of a mapping that is laid out in lines, up to its end. -/
def blockEntries : (depth : Nat) → Reader (List (Node × Node))
  | 0 => throw .unexpected
  | depth + 1 => do
    if ← take .key then
      let k ← optional true true [.key, .value, .collectionEnd] depth
      let v ← valueAfter true [.key, .value, .collectionEnd] depth
      return (k, v) :: (← blockEntries depth)
    else
      expect .collectionEnd
      return []

/-- Reads the value of a key, which may be left out. -/
def valueAfter (isBlock : Bool) (stops : List Token) : (depth : Nat) → Reader Node
  | 0 => throw .unexpected
  | depth + 1 => do
    if ← take .value then optional isBlock isBlock stops depth
    else return .null

/-- Reads the items of a list in brackets, up to its end. An item with a key is
a mapping with this one entry. -/
def flowItems (isFirst : Bool) : (depth : Nat) → Reader (List Node)
  | 0 => throw .unexpected
  | depth + 1 => do
    if ← take .closeList then return []
    else
      unless isFirst do expect .comma
      if ← take .closeList then return []
      else if ← take .key then
        let k ← optional false false [.value, .comma, .closeList] depth
        let v ← valueAfter false [.comma, .closeList] depth
        return .mapping (.kind .mapping) [(k, v)] :: (← flowItems false depth)
      else
        let n ← node false false depth
        return n :: (← flowItems false depth)

/-- Reads the entries of a mapping in brackets, up to its end. -/
def flowEntries (isFirst : Bool) : (depth : Nat) → Reader (List (Node × Node))
  | 0 => throw .unexpected
  | depth + 1 => do
    if ← take .closeMapping then return []
    else
      unless isFirst do expect .comma
      if ← take .closeMapping then return []
      else if ← take .key then
        let k ← optional false false [.value, .comma, .closeMapping] depth
        let v ← valueAfter false [.comma, .closeMapping] depth
        return (k, v) :: (← flowEntries false depth)
      else
        let k ← node false false depth
        return (k, .null) :: (← flowEntries false depth)

end

/-- How deep the calls of the readers may nest. -/
def depthBound (ts : List Token) : Nat := 5 * (ts.length + 1)

/-! ### Documents -/

/-- Passes over the markers at the end of a document. -/
def documentEnds : (count : Nat) → Reader Unit
  | 0 => return
  | count + 1 => do if ← take .documentEnd then documentEnds count

/-- The handles that need no declaration. -/
def usualHandles : List (String × String) := [("!", "!"), ("!!", Kind.tagStem)]

/-- Reads the directives of a document. Given is whether the version is known
already. -/
def directives (versionKnown : Bool) : (count : Nat) → Reader Unit
  | 0 => return
  | count + 1 => do
    match ← peek with
    | some (.directive (.version major _)) =>
      if versionKnown then throw .repeatedDirective
      if major ≠ 1 then throw .unknownVersion
      advance
      directives true count
    | some (.directive (.handle name text)) =>
      if (← get).handles.any (·.1 == name) then throw .repeatedDirective
      modify fun r => { r with handles := (name, text) :: r.handles }
      advance
      directives versionKnown count
    | some (.directive .other) =>
      advance
      directives versionKnown count
    | _ => return

/-- Whether the next token belongs to no node. -/
def atBoundary : Reader Bool := do
  match ← peek with
  | none | some (.directive _) | some .documentStart | some .documentEnd => return true
  | _ => return false

/-- Reads a document with the marker in front of it. -/
def markedDocument : Reader Node := do
  let count := (← get).tokens.length
  directives false count
  modify fun r => { r with handles := r.handles ++ usualHandles }
  expect .documentStart
  if ← atBoundary then return .null
  else node true false (depthBound (← get).tokens)

/-- Reads the document of a file. A file without one holds nothing. -/
def document : Reader Node := do
  match ← peek with
  | none => return .null
  | some t =>
    let unmarked := match t with
      | .directive _ | .documentStart => false
      | _ => true
    let n ←
      if unmarked then do
        modify fun r => { r with handles := usualHandles }
        node true false (depthBound (← get).tokens)
      else markedDocument
    documentEnds (← get).tokens.length
    if (← peek).isSome then throw .severalDocuments
    return n

end Reader

/-- The node that a text writes down. -/
def Node.ofText (text : String) : Except Error Node := do
  let tokens ← Token.ofText text
  return (← Reader.document.run { tokens }).1

end EvmToolchain.Yaml
