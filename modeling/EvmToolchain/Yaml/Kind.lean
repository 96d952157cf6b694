import EvmToolchain.Text.Fraction

/-!
# EvmToolchain.Yaml.Kind

What a value in a settings file is, and how a text without quotes shows it: a
number, a truth value, a moment and so on are told by their looks.
-/

namespace EvmToolchain.Yaml

/-- The kinds of values, and signs that have no value of their own. -/
inductive Kind
  | null
  | truth
  | integer
  | fraction
  | moment
  | text
  | bytes
  | list
  /-- A list of keys with values. -/
  | pairs
  | set
  | mapping
  /-- The key under which stands what is to be merged into a mapping. -/
  | merge
  /-- The key under which a mapping keeps what it stands for as a text. -/
  | value
  /-- The sign of a tag, an anchor or a reference, all alone. -/
  | indicator
  deriving Repr, DecidableEq

namespace Kind

/-- What the tags of the format start with. -/
def tagStem : String := "tag:yaml.org,2002:"

/-- The kind of a tag without its stem. -/
def ofShortTag? : String → Option Kind
  | "null" => some null
  | "bool" => some truth
  | "int" => some integer
  | "float" => some fraction
  | "timestamp" => some moment
  | "str" => some text
  | "binary" => some bytes
  | "seq" => some list
  | "omap" => some pairs
  | "pairs" => some pairs
  | "set" => some set
  | "map" => some mapping
  | "merge" => some merge
  | "value" => some value
  | "yaml" => some indicator
  | _ => none

/-- The kind of a tag. -/
def ofTag? (tag : String) : Option Kind :=
  if tagStem.toList.isPrefixOf tag.toList then
    ofShortTag? (String.ofList (tag.toList.drop tagStem.length))
  else none

/-! ### The looks of texts -/

/-- The ways to write a word: in small letters, with a capital, in capitals. -/
def spellings (word : String) : List String :=
  [word, word.capitalize, word.map Char.toUpper]

/-- Whether the text stands for nothing. -/
def isNull (s : String) : Bool := s == "" || s == "~" || (spellings "null").contains s

/-- The words for truth values. -/
def truthWords : List (String × Bool) :=
  [("yes", true), ("no", false), ("true", true), ("false", false), ("on", true), ("off", false)]

/-- Whether the text is a word for a truth value. -/
def isTruth (s : String) : Bool := truthWords.any fun w => (spellings w.1).contains s

/-- Whether a character is one of some, or an underscore. -/
def orUnderscore (p : Char → Bool) (c : Char) : Bool := c == '_' || p c

/-- Whether a nonempty text consists of the given characters and underscores. -/
def allOf (p : Char → Bool) (cs : List Char) : Bool := !cs.isEmpty && cs.all (orUnderscore p)

/-- Whether a text consists of the given characters and underscores, and does
not start with an underscore. -/
def startsAs (p : Char → Bool) (cs : List Char) : Bool :=
  cs.head?.any p && cs.all (orUnderscore p)

/-- The parts of a text between colons. -/
def colonParts (cs : List Char) : List (List Char) := cs.splitOn ':'

/-- Whether a text is a number of minutes or seconds, of at most two digits. -/
def isSixtieth : List Char → Bool
  | [d] => d.isDigit
  | [t, d] => '0' ≤ t && t ≤ '5' && d.isDigit
  | _ => false

/-- Whether a digit is not zero. -/
def isPositiveDigit (c : Char) : Bool := '1' ≤ c && c ≤ '9'

/-- Whether a text without a sign is an integer: binary, octal, hexadecimal or
decimal, or with parts to the base sixty. -/
def isMagnitude (cs : List Char) : Bool :=
  match cs with
  | ['0'] => true
  | '0' :: 'b' :: ds => allOf (fun c => c == '0' || c == '1') ds
  | '0' :: 'x' :: ds => allOf (fun c => (Hex.digitValue? c).isSome) ds
  | '0' :: ds => allOf (fun c => '0' ≤ c && c ≤ '7') ds
  | _ =>
    match colonParts cs with
    | first :: parts =>
      first.head?.any isPositiveDigit && startsAs Char.isDigit first && parts.all isSixtieth
    | [] => false

/-- Whether the text is an integer. -/
def isInteger (cs : List Char) : Bool := isMagnitude (Numeral.splitSign cs).2

/-- Whether a text is the exponent of a number, which has a sign; it may be
left out. -/
def isExponent : List Char → Bool
  | [] => true
  | e :: sign :: ds =>
    (e == 'e' || e == 'E') && (sign == '+' || sign == '-') && !ds.isEmpty && ds.all Char.isDigit
  | _ => false

/-- Whether a text is what stands behind the point of a number. -/
def isPart (cs : List Char) : Bool :=
  isExponent (cs.dropWhile (orUnderscore Char.isDigit))

/-- Whether a text without a sign is a number with a point behind a digit, or
the name of an infinite number. -/
def isSignedFraction (cs : List Char) : Bool :=
  (spellings "inf").any (fun s => cs == '.' :: s.toList)
    || (let (front, rest) := cs.span (· != '.')
        match rest with
        | [] => false
        | _ :: part =>
          match colonParts front with
          | [whole] => startsAs Char.isDigit whole && isPart part
          | first :: parts =>
            startsAs Char.isDigit first && parts.all isSixtieth
              && part.all (orUnderscore Char.isDigit)
          | [] => false)

/-- Whether the text is a number with a point. One that starts with its point
has no sign. -/
def isFraction (cs : List Char) : Bool :=
  isSignedFraction (Numeral.splitSign cs).2
    || [".nan", ".NaN", ".NAN"].any (fun s => cs == s.toList)
    || (match cs with
        | '.' :: d :: part => d.isDigit && isPart part
        | _ => false)

end Kind

end EvmToolchain.Yaml
