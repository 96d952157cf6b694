import EvmToolchain.Text.Base64
import EvmToolchain.Yaml.Error
import EvmToolchain.Yaml.Moment

/-!
# EvmToolchain.Yaml.Scalar

The value of a text that is known to be of a kind, be it by its looks or by a
tag. Underscores in numbers are ignored. Numbers may have parts to the base
sixty, with colons between them.
-/

namespace EvmToolchain.Yaml.Scalar

/-- The truth value that a word stands for, in either case of its letters. -/
def truth (s : String) : Except Error SettingValue :=
  match Kind.truthWords.find? (·.1 == s.toLower) with
  | some (_, b) => .ok (.truth b)
  | none => .error .malformedTruth

/-- The characters of a number without underscores, and whether it has a minus
sign in front. -/
def splitSign (s : String) : Except Error (Bool × List Char) :=
  match s.toList.filter (· != '_') with
  | [] => .error .emptyNumeral
  | cs => .ok (Numeral.splitSign cs)

/-- The number that some parts to the base sixty make. -/
def sexagesimal (parts : List Int) : Int := parts.foldl (fun n p => 60 * n + p) 0

/-- The integer without a sign that some characters denote. -/
def magnitude? : List Char → Option Int
  | '0' :: 'b' :: ds => Numeral.inBase? 2 ds
  | '0' :: 'x' :: ds => Numeral.inBase? 16 ds
  | '0' :: ds => Numeral.inBase? 8 ('0' :: ds)
  | cs => ((Kind.colonParts cs).mapM Numeral.decimal?).map sexagesimal

/-- The integer that a text denotes. A leading zero makes it an octal number. -/
def integer (s : String) : Except Error SettingValue := do
  let (negative, cs) ← splitSign s
  if cs.isEmpty then throw .emptyNumeral
  match magnitude? cs with
  | some n => return .whole (if negative then -n else n)
  | none => throw .malformedNumeral

/-- The sum of parts to the base sixty, of which the last one comes first and
counts as it is. Each step is rounded. -/
def sumParts (sum : Binary64) (base : Int) : List Binary64 → Except Error Binary64
  | [] => .ok sum
  | p :: rest =>
    match Binary64.ofInt base with
    | .infinite _ => .error .numeralOverflow
    | b => sumParts (sum.add (p.mul b)) (base * 60) rest

/-- The number without a sign that some characters denote. -/
def fractionMagnitude (cs : List Char) : Except Error Binary64 :=
  if cs = ".inf".toList then .ok (.infinite false)
  else if cs = ".nan".toList then .ok .undefined
  else
    match (Kind.colonParts cs).mapM Fraction.read? with
    | none => .error .malformedNumeral
    | some [p] => .ok p
    | some parts => sumParts (.ofInt 0) 1 parts.reverse

/-- The number with a point that a text denotes. -/
def fraction (s : String) : Except Error SettingValue := do
  let (negative, cs) ← splitSign s
  let n ← fractionMagnitude (cs.map Char.toLower)
  return .number (.real (if negative then n.neg else n))

/-- The day or moment that a text denotes. -/
def moment (s : String) : Except Error SettingValue :=
  match Moment.read? (withoutFinalBreak s.toList) with
  | some (.day d) => if d.isValid then .ok (.day d) else .error .invalidMoment
  | some (.moment m) => if m.isValid then .ok (.moment m) else .error .invalidMoment
  | _ => .error .malformedMoment

/-- The bytes that a text denotes. -/
def bytes (s : String) : Except Error SettingValue :=
  let cs := s.toList
  if cs.any fun c => 128 ≤ c.toNat then .error .malformedBytes
  else
    match Base64.toBytes? cs with
    | some bs => .ok (.bytes bs)
    | none => .error .malformedBytes

/-- The value of a text of a kind. -/
def value (k : Kind) (s : String) : Except Error SettingValue :=
  match k with
  | .null => .ok .null
  | .truth => truth s
  | .integer => integer s
  | .fraction => fraction s
  | .moment => moment s
  | .text => .ok (.text s)
  | .bytes => bytes s
  | _ => .error .unsuitableTag

end EvmToolchain.Yaml.Scalar
