/-!
# EvmToolchain.Yaml.Error

Why the text of a settings file has no value.
-/

namespace EvmToolchain.Yaml

/-- Why a text is not well-formed, or what it writes down has no value. -/
inductive Error
  /-- The character may not occur at all, or not in this place. -/
  | character (c : Char)
  | unclosedQuote
  /-- A document marker stands in a text in quotes. -/
  | markerInQuotes
  /-- No character is written by this escape. -/
  | malformedEscape
  /-- The number of an escape is above that of every character. -/
  | escapeRange
  /-- The number of an escape does not even fit a machine integer. -/
  | escapeOverflow
  /-- What has to be a key has no colon behind it on its line. -/
  | unfinishedKey
  /-- An item, a key or a value cannot start here. -/
  | misplacedIndicator
  | malformedDirective
  | malformedName
  | malformedTag
  | malformedBlockHeader
  /-- The text goes on, or ends, in another way than it may. -/
  | unexpected
  | repeatedDirective
  /-- The text is written for another version of the format. -/
  | unknownVersion
  /-- The shorthand in a tag stands for nothing. -/
  | unknownHandle (handle : String)
  | unknownAlias (name : String)
  | repeatedAnchor (name : String)
  | severalDocuments
  /-- Collections nest too deep. -/
  | nesting
  /-- The tag does not belong to the format. -/
  | unknownTag (tag : String)
  /-- The tag does not suit the form of what is tagged. -/
  | unsuitableTag
  /-- A collection is used as a key. -/
  | collectionAsKey
  /-- What is merged into a mapping is none. -/
  | unmergeable
  | malformedBytes
  /-- A number without any characters. -/
  | emptyNumeral
  | malformedNumeral
  /-- A part of a number is greater than all numbers of its kind. -/
  | numeralOverflow
  | malformedTruth
  | malformedMoment
  /-- The calendar has no such day, or the clock no such time. -/
  | invalidMoment
  deriving Repr, DecidableEq

end EvmToolchain.Yaml
