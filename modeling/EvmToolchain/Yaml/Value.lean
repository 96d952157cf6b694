import EvmToolchain.Yaml.Document
import EvmToolchain.Yaml.Scalar

/-!
# EvmToolchain.Yaml.Value

The value that a settings file holds.

A collection comes to be before what is in it does, so of several errors the
one that lies in the fewest collections counts, and of several such the first
(`Outcome.both`).

A mapping takes in the entries of other mappings that stand under its merge
key. Its own entries win over these, and of a list of mappings the earlier
ones win over the later ones (`Node.merged`).
-/

namespace EvmToolchain.Yaml

/-- Why there is no value, and in how many collections the error lies. -/
structure Fault where
  depth : Nat
  error : Error
  deriving Repr

/-- A value or a fault. -/
abbrev Outcome (α : Type) := Except Fault α

namespace Outcome

/-- An error that lies in some collections. -/
def fault {α : Type} (depth : Nat) (e : Error) : Outcome α := .error ⟨depth, e⟩

/-- A value or an error that lies in no collection. -/
def ofExcept {α : Type} (r : Except Error α) : Outcome α := r.mapError fun e => ⟨0, e⟩

/-- The outcome inside of a collection. -/
def inside {α : Type} (r : Outcome α) : Outcome α :=
  r.mapError fun f => { f with depth := f.depth + 1 }

/-- Two outcomes together. -/
def both {α β : Type} : Outcome α → Outcome β → Outcome (α × β)
  | .ok a, .ok b => .ok (a, b)
  | .error e, .ok _ => .error e
  | .ok _, .error f => .error f
  | .error e, .error f => .error (if f.depth < e.depth then f else e)

/-- Some outcomes together. -/
def all {α : Type} : List (Outcome α) → Outcome (List α)
  | [] => .ok []
  | r :: rest => (both r (all rest)).map fun (a, more) => a :: more

/-- The more serious one of two faults is kept. -/
theorem both_error {α β : Type} (e f : Fault) :
    ∃ g, both (.error e : Outcome α) (.error f : Outcome β) = .error g
      ∧ g.depth ≤ e.depth ∧ g.depth ≤ f.depth := by
  refine ⟨if f.depth < e.depth then f else e, rfl, ?_⟩
  split <;> omega

end Outcome

namespace Node

mutual

/-- The text of a node. A mapping keeps what it stands for under a key for it. -/
def textOf : Node → Except Error String
  | scalar _ s => .ok s
  | mapping _ entries => textOfEntries entries
  | _ => .error .unsuitableTag

/-- The text of a mapping with some entries. -/
def textOfEntries : List (Node × Node) → Except Error String
  | [] => .error .unsuitableTag
  | (k, v) :: rest => if k.tag = .kind .value then textOf v else textOfEntries rest

end

/-- Whether a key stands for what is to be merged. -/
def isMerge (k : Node) : Bool := k.tag == .kind .merge

/-- Whether a node can be merged into a mapping: it is one, or a list of
mappings. -/
def isMergeable : Node → Bool
  | mapping .. => true
  | list _ items => items.all fun n => n.entries?.isSome
  | _ => false

/-- The entries that are not replaced by the ones that they bring in. -/
def ownEntries (entries : List (Node × Node)) : List (Node × Node) :=
  entries.filter fun e => !(isMerge e.1 && e.2.isMergeable)

mutual

/-- The entries that a node brings into a mapping. -/
def contribution : Node → List (Node × Node)
  | mapping _ entries => takenIn entries ++ ownEntries entries
  | list _ items => contributions items
  | _ => []

/-- The entries that some mappings bring in, those of the last one first. -/
def contributions : List Node → List (Node × Node)
  | [] => []
  | n :: rest => contributions rest ++ contribution n

/-- The entries that a mapping takes in. -/
def takenIn : List (Node × Node) → List (Node × Node)
  | [] => []
  | (k, v) :: rest =>
    (if isMerge k && v.isMergeable then contribution v else []) ++ takenIn rest

end

/-- The entries of a mapping behind those that it takes in. What cannot be
merged is left under its key. -/
def merged (entries : List (Node × Node)) : List (Node × Node) :=
  takenIn entries ++ ownEntries entries

/-- A key of a mapping. The sign for the value of a mapping is a text there. -/
def asKey : Node → Node
  | scalar (.kind .value) s => scalar (.kind .text) s
  | list (.kind .value) items => list (.kind .text) items
  | mapping (.kind .value) entries => mapping (.kind .text) entries
  | n => n

/-- Whether the value of a node is a collection, which can be no key. -/
def isCollection (n : Node) : Bool :=
  [Kind.list, .pairs, .set, .mapping].any fun k => n.tag == .kind k

/-- The key and the value of an entry of a mapping. -/
def entry (value : Node → Outcome SettingValue) (e : Node × Node) :
    Outcome (SettingValue × SettingValue) :=
  let key := if e.1.isCollection then .fault 0 .collectionAsKey else value e.1.asKey
  key.both (value e.2)

/-- The entries of a mapping. -/
def entriesOf (value : Node → Outcome SettingValue) : Node → Outcome SettingValue.Entries
  | mapping _ entries =>
    let es := merged entries
    if es.any (·.1.isMerge) then .fault 0 .unmergeable
    else (Outcome.all (es.map (entry value))).map SettingValue.ofEntries
  | _ => .fault 0 .unsuitableTag

/-- The pair that an item of a list of pairs stands for, a mapping with a
single entry. -/
def pairOf (value : Node → Outcome SettingValue) : Node → Outcome SettingValue
  | mapping _ [(k, v)] => ((value k).both (value v)).map fun e => .pair e.1 e.2
  | _ => .fault 0 .unsuitableTag

/-- The items of a list. -/
def itemsOf (value : Node → Outcome SettingValue) : Node → Outcome (List SettingValue)
  | list _ items => .all (items.map value)
  | _ => .fault 0 .unsuitableTag

/-- The value of a node whose collections are nested less deep than given. -/
def valueWithin : (bound : Nat) → Node → Outcome SettingValue
  | 0, _ => .fault 0 .unexpected
  | bound + 1, n =>
    match n, n.tag with
    | knot _, _ => .ok .null
    | _, .unknown name => .fault 0 (.unknownTag name)
    | _, .kind k =>
      match k with
      | .merge | .value | .indicator => .fault 0 (.unknownTag Kind.tagStem)
      | .list => (n.itemsOf (valueWithin bound)).inside.map .list
      | .pairs =>
        (n.itemsOf (pairOf (valueWithin bound))).inside.map .list
      | .set => (n.entriesOf (valueWithin bound)).inside.map fun es => .set (es.map (·.1))
      | .mapping => (n.entriesOf (valueWithin bound)).inside.map .mapping
      | k => .ofExcept (n.textOf >>= Scalar.value k)

/-- The value of a node. -/
def value (n : Node) : Except Error SettingValue :=
  (n.valueWithin (n.depth + 1)).mapError (·.error)

end Node

/-- The value that a text holds. -/
def read (text : String) : Except Error SettingValue := do
  let n ← Node.ofText text
  n.value

end EvmToolchain.Yaml
