import EvmToolchain.Calendar
import EvmToolchain.Numeric.Number
import EvmToolchain.Text.Quoted

/-!
# EvmToolchain.Settings.Value

Values as a settings file holds them: nothing, numbers, texts, bytes, days and
moments, and collections of them. A mapping keeps its entries in the order in
which their keys first occur.
-/

namespace EvmToolchain

/-- A value in a settings file. -/
inductive SettingValue
  | null
  | number (n : Number)
  | text (s : String)
  | bytes (bs : List UInt8)
  | day (d : Day)
  | moment (m : Moment)
  | list (items : List SettingValue)
  /-- A key and its value as an item of a list. -/
  | pair (key value : SettingValue)
  | set (members : List SettingValue)
  | mapping (entries : List (SettingValue × SettingValue))
  deriving Repr, Inhabited

namespace SettingValue

/-- The entries of a mapping. -/
abbrev Entries := List (SettingValue × SettingValue)

/-- A whole number. -/
def whole (v : Int) : SettingValue := number (.whole v)

/-- A truth value. -/
def truth (b : Bool) : SettingValue := number (.truth b)

/-- Whether the value counts as set: anything but nothing, zero and what is
empty. -/
def isSet : SettingValue → Bool
  | null => false
  | number n => !n.sameValue (.whole 0)
  | text s => !s.isEmpty
  | bytes bs => !bs.isEmpty
  | day _ | moment _ | pair .. => true
  | list items | set items => !items.isEmpty
  | mapping entries => !entries.isEmpty

/-- Whether two values are the same key of a mapping. Numbers are, when they
have the same value; what is no number at all is a single key. -/
def sameKey : SettingValue → SettingValue → Bool
  | null, null => true
  | number a, number b => a.sameValue b || (a.position?.isNone && b.position?.isNone)
  | text a, text b => a == b
  | bytes a, bytes b => a == b
  | day a, day b => a == b
  | moment a, moment b => a.isComparable b && a.instant == b.instant
  | _, _ => false

/-- The entries with a value put under a key. The place of a key that is there
already, and the form in which it is written, stay. -/
def put (key value : SettingValue) : Entries → Entries
  | [] => [(key, value)]
  | (k, v) :: rest => if k.sameKey key then (k, value) :: rest else (k, v) :: put key value rest

/-- The entries of a mapping that come of putting some in order. -/
def ofEntries (entries : Entries) : Entries :=
  entries.foldl (fun es e => put e.1 e.2 es) []

/-- Whether the value comes before another one; `none` if they have no order. -/
def before? : SettingValue → SettingValue → Option Bool
  | number a, number b => some (a.lt b)
  | text a, text b => some (a < b)
  | bytes a, bytes b => some (a < b)
  | day a, day b => some (a.ordinal < b.ordinal)
  | moment a, moment b => if a.isComparable b then some (a.instant < b.instant) else none
  | _, _ => none

mutual

/-- The text of a value inside a message. -/
def describe : SettingValue → String
  | null => "None"
  | number n => toString n
  | text s => Quoted.encode s
  | bytes bs => Quoted.encodeBytes bs
  | day d => toString d
  | moment m => toString m
  | list items => "[" ++ ", ".intercalate (describeAll items) ++ "]"
  | pair key value => "(" ++ describe key ++ ", " ++ describe value ++ ")"
  | set members => "\x7b" ++ ", ".intercalate (describeAll members) ++ "\x7d"
  | mapping entries => "\x7b" ++ ", ".intercalate (describeEntries entries) ++ "\x7d"

/-- The texts of some values. -/
def describeAll : List SettingValue → List String
  | [] => []
  | v :: rest => describe v :: describeAll rest

/-- The texts of the entries of a mapping. -/
def describeEntries : List (SettingValue × SettingValue) → List String
  | [] => []
  | (k, v) :: rest => (describe k ++ ": " ++ describe v) :: describeEntries rest

end

/-- Whether a key can be written in a message. -/
def isWritable : SettingValue → Bool
  | number n => n.isWritable
  | _ => true

/-- The values in order; `none` if two of them have no order. -/
def sort? (values : List SettingValue) : Option (List SettingValue) :=
  let comparable := values.all fun v => values.all fun w => (v.before? w).isSome
  if comparable || values.length < 2 then
    some (values.mergeSort fun v w => (w.before? v) != some true)
  else none

end SettingValue

end EvmToolchain
