import EvmToolchain.Yaml.Moment

/-!
# EvmToolchain.Yaml.Node

What a settings file writes down: texts, lists and mappings, each with a tag
that tells what it is.

A collection may be used again under the name of an anchor, also within
itself. There it is unfolded once (`Node.tie`); what would be further inside
is empty.
-/

namespace EvmToolchain.Yaml

/-- A tag of the format, or any other one. -/
inductive Tag
  | kind (k : Kind)
  | unknown (name : String)
  deriving Repr, DecidableEq

/-- The tag of a name. -/
def Tag.ofName (name : String) : Tag :=
  match Kind.ofTag? name with
  | some k => .kind k
  | none => .unknown name

/-- A text or a collection that is written down. -/
inductive Node
  | scalar (tag : Tag) (text : String)
  | list (tag : Tag) (items : List Node)
  | mapping (tag : Tag) (entries : List (Node × Node))
  /-- A collection, by the name of its anchor, that contains this place. -/
  | knot (name : String)
  deriving Repr, Inhabited

namespace Node

/-- What is written as nothing at all. -/
def null : Node := scalar (.kind .null) ""

/-- The tag of a node. -/
def tag : Node → Tag
  | scalar t _ | list t _ | mapping t _ => t
  | knot _ => .kind .null

/-- The node without anything in it. -/
def emptied : Node → Node
  | scalar t s => scalar t s
  | list t _ => list t []
  | mapping t _ => mapping t []
  | knot name => knot name

mutual

/-- The node with another one in all places where it uses a name. -/
def replace (name : String) (other : Node) : Node → Node
  | scalar t s => scalar t s
  | list t items => list t (replaceAll name other items)
  | mapping t entries => mapping t (replaceEntries name other entries)
  | knot n => if n = name then other else knot n

/-- The nodes with another one in all places where they use a name. -/
def replaceAll (name : String) (other : Node) : List Node → List Node
  | [] => []
  | n :: rest => replace name other n :: replaceAll name other rest

/-- The entries with another node in all places where they use a name. -/
def replaceEntries (name : String) (other : Node) : List (Node × Node) → List (Node × Node)
  | [] => []
  | (k, v) :: rest =>
    (replace name other k, replace name other v) :: replaceEntries name other rest

end

/-- The node of an anchor, unfolded where it uses the name of the anchor. -/
def tie (name : String) (n : Node) : Node := replace name (replace name n.emptied n) n

mutual

/-- How deep collections are nested in a node. -/
def depth : Node → Nat
  | scalar .. | knot _ => 0
  | list _ items => depthAll items + 1
  | mapping _ entries => depthEntries entries + 1

/-- How deep collections are nested in some nodes. -/
def depthAll : List Node → Nat
  | [] => 0
  | n :: rest => max (depth n) (depthAll rest)

/-- How deep collections are nested in some entries. -/
def depthEntries : List (Node × Node) → Nat
  | [] => 0
  | (k, v) :: rest => max (max (depth k) (depth v)) (depthEntries rest)

end

/-- The entries of a node that is a mapping. -/
def entries? : Node → Option (List (Node × Node))
  | mapping _ entries => some entries
  | _ => none

end Node

end EvmToolchain.Yaml
