import EvmToolchain.Settings.Value
import EvmToolchain.Yaml.Kind

/-!
# EvmToolchain.Yaml.Moment

Days and moments as they are written in a settings file: the numbers of a day
with dashes between them; then, behind a letter or blanks, those of a time
with colons between them, of which the last one may have a fraction; then how
far the clock is ahead.
-/

namespace EvmToolchain.Yaml.Moment

/-- Reads a number with some count of digits. -/
def number? (least most : Nat) (cs : List Char) : Option (Nat × List Char) :=
  let ds := (cs.takeWhile Char.isDigit).take most
  if ds.length < least then none else some (Fraction.natural ds, cs.drop ds.length)

/-- Reads a sign and a number behind it. -/
def numberAfter? (sign : Char) (least most : Nat) : List Char → Option (Nat × List Char)
  | c :: rest => if c = sign then number? least most rest else none
  | [] => none

/-- Reads the numbers of a day. -/
def day? (cs : List Char) : Option (Day × List Char) := do
  let (year, cs) ← number? 4 4 cs
  let (month, cs) ← numberAfter? '-' 1 2 cs
  let (day, cs) ← numberAfter? '-' 1 2 cs
  return (⟨year, month, day⟩, cs)

/-- Passes over what stands between a day and a time. -/
def separated? : List Char → Option (List Char)
  | c :: rest =>
    if c = 'T' ∨ c = 't' then some rest
    else if c = ' ' ∨ c = '\t' then some (rest.dropWhile fun c => c == ' ' || c == '\t')
    else none
  | [] => none

/-- The microseconds that the digits of a fraction denote. Further digits are
dropped. -/
def microseconds (ds : List Char) : Nat :=
  let ds := ds.take 6
  Fraction.natural (ds ++ List.replicate (6 - ds.length) '0')

/-- Reads how far a clock is ahead, up to the end of the text. It may be left
out. -/
def ahead? (cs : List Char) : Option (Option Int) :=
  if cs.isEmpty then some none
  else
    match cs.dropWhile fun c => c == ' ' || c == '\t' with
    | ['Z'] => some (some 0)
    | sign :: rest =>
      if sign = '+' ∨ sign = '-' then
        match number? 1 2 rest with
        | some (hours, []) => some (some (Numeral.signed (sign == '-') (hours * 60)))
        | some (hours, rest) =>
          match numberAfter? ':' 2 2 rest with
          | some (minutes, []) =>
            some (some (Numeral.signed (sign == '-') (hours * 60 + minutes)))
          | _ => none
        | none => none
      else none
    | [] => none

/-- Reads a time of a day, up to the end of the text. -/
def time? (day : Day) (cs : List Char) : Option EvmToolchain.Moment := do
  let (hour, cs) ← number? 1 2 cs
  let (minute, cs) ← numberAfter? ':' 2 2 cs
  let (second, cs) ← numberAfter? ':' 2 2 cs
  let (part, cs) := match cs with
    | '.' :: rest => rest.span Char.isDigit
    | _ => ([], cs)
  let ahead ← ahead? cs
  return ⟨day, hour, minute, second, microseconds part, ahead⟩

/-- Reads a day, or a moment of one. The numbers need not belong to any. -/
def read? (cs : List Char) : Option SettingValue := do
  let (day, cs) ← day? cs
  if cs.isEmpty then return .day day
  return .moment (← time? day (← separated? cs))

/-- Whether a text is a moment, or a day whose month and day have two digits. -/
def looksSo (cs : List Char) : Bool :=
  match read? cs with
  | some (.day _) => cs.length == 10
  | some _ => true
  | none => false

end Moment

/-- A text without the line break at its end. A lone line break stays. -/
def withoutFinalBreak : List Char → List Char
  | [] => []
  | [c] => [c]
  | c :: rest => if rest = ['\n'] then [c] else c :: withoutFinalBreak rest

/-- The kind of a text without quotes. -/
def Kind.ofPlain (s : String) : Kind :=
  let cs := withoutFinalBreak s.toList
  let s := String.ofList cs
  if isNull s then .null
  else if isTruth s then .truth
  else if isFraction cs then .fraction
  else if isInteger cs then .integer
  else if Moment.looksSo cs then .moment
  else if s = "<<" then .merge
  else if s = "=" then .value
  else if ["!", "&", "*"].contains s then .indicator
  else .text

end EvmToolchain.Yaml
