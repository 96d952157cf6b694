import EvmToolchain.Analysis.Disassembly
import EvmToolchain.Compiler.Lowering
import EvmToolchain.Settings.Value

/-!
# EvmToolchain.Settings.Sections

The sections of the settings: those of the analysis and those of the compiler.
Each has default values, which a mapping of names to values overrides, and
checks the values that it is given.
-/

namespace EvmToolchain

/-- Why settings are refused. -/
inductive SettingsError
  /-- A name that the section does not have was given in a call. -/
  | unknownKeyword (name : String)
  /-- A value that takes part in a comparison is no number. -/
  | notNumeric (name : String)
  | maxPasses (given : Number)
  | wordSize (given : Number)
  | slotSize (given : Number)
  /-- A section, of the given title, is no mapping. -/
  | sectionShape (title : String)
  /-- A section, of the given title, has entries under unknown names. -/
  | unknownEntries (title : String) (keys : List SettingValue)
  | unknownSections (keys : List SettingValue)
  /-- The settings file, of the given path, is no mapping. -/
  | fileShape (path : String)
  /-- Unknown names are so different that they have no order. -/
  | unorderedKeys
  /-- A number that would be part of the message has too many digits. -/
  | unwritable
  deriving Repr

/-- The wording of an error. -/
def SettingsError.message : SettingsError → String
  | unknownKeyword name => "Unknown setting: " ++ name
  | notNumeric name => name ++ " must be a number"
  | maxPasses given => "max_passes must be positive, got " ++ toString given
  | wordSize given => "word_size must be between 1 and 32, got " ++ toString given
  | slotSize given => "slot_size must be positive, got " ++ toString given
  | sectionShape title => title ++ " settings must be a mapping"
  | unknownEntries title keys =>
    "Unknown " ++ title ++ " settings: " ++ (SettingValue.list keys).describe
  | unknownSections keys => "Unknown settings sections: " ++ (SettingValue.list keys).describe
  | fileShape path => "Settings file " ++ path ++ " must contain a mapping"
  | unorderedKeys => "Unknown settings of several kinds"
  | unwritable => "A number has more digits than can be written"

/-- The error for a number, if the number can be written. -/
def SettingsError.about (given : Number) (e : SettingsError) : SettingsError :=
  if given.isWritable then e else unwritable

/-- Settings of the analysis. -/
structure AnalysisSettings where
  /-- The most passes; without a limit the analysis runs to its end. -/
  maxPasses : Option Number := none
  /-- Whether visits to blocks are logged. Any value will do. -/
  trace : SettingValue := .truth false
  deriving Repr

/-- Settings of the compiler. -/
structure CompilerSettings where
  /-- The number of bytes in a word. -/
  wordSize : Number := .whole 32
  /-- The distance in memory between values that a program returns. -/
  slotSize : Number := .whole 32
  deriving Repr

/-- The number that a value is, for a setting of the given name. -/
def SettingValue.toNumber (name : String) : SettingValue → Except SettingsError Number
  | number n => .ok n
  | _ => .error (.notNumeric name)

/-- Names and values, as they are given for a section. -/
abbrev Assignments := List (String × SettingValue)

namespace Assignments

/-- The value given for a name. -/
def value? (given : Assignments) (name : String) : Option SettingValue :=
  (given.find? (·.1 == name)).map (·.2)

/-- Fails for names that are not among the known ones. -/
def checkNames (given : Assignments) (known : List String) : Except SettingsError Unit :=
  match given.find? fun a => !known.contains a.1 with
  | some (name, _) => .error (.unknownKeyword name)
  | none => .ok ()

end Assignments

namespace AnalysisSettings

/-- The name of the section in messages. -/
def title : String := "AnalysisConfig"

/-- The names of the settings. -/
def names : List String := ["max_passes", "trace"]

/-- The settings with the given values in place of the defaults. -/
def ofAssignments (given : Assignments) : Except SettingsError AnalysisSettings := do
  given.checkNames names
  let trace := (given.value? "trace").getD (.truth false)
  match (given.value? "max_passes").getD .null with
  | .null => return { trace }
  | v =>
    let limit ← v.toNumber "max_passes"
    if limit.lt (.whole 1) then throw (SettingsError.about limit (.maxPasses limit))
    return { maxPasses := some limit, trace }

/-- The options that the settings stand for. -/
def options (s : AnalysisSettings) : AnalysisOptions where
  maxPasses := s.maxPasses
  trace := s.trace.isSet

end AnalysisSettings

namespace CompilerSettings

/-- The name of the section in messages. -/
def title : String := "CompilerConfig"

/-- The names of the settings. -/
def names : List String := ["word_size", "slot_size"]

/-- The settings with the given values in place of the defaults. -/
def ofAssignments (given : Assignments) : Except SettingsError CompilerSettings := do
  given.checkNames names
  let wordSize ← ((given.value? "word_size").getD (.whole 32)).toNumber "word_size"
  unless (Number.whole 1).le wordSize && wordSize.le (.whole 32) do
    throw (SettingsError.about wordSize (.wordSize wordSize))
  let slotSize ← ((given.value? "slot_size").getD (.whole 32)).toNumber "slot_size"
  if slotSize.lt (.whole 1) then throw (SettingsError.about slotSize (.slotSize slotSize))
  return { wordSize, slotSize }

/-- The options that the settings stand for. A word has a whole number of
bytes, but the distance of values may be kept as a fraction. -/
def options (s : CompilerSettings) : CompilerOptions where
  wordSize := (s.wordSize.floor?.getD 0).toNat
  slotSize := s.slotSize.whole?.map Int.toNat

end CompilerSettings

/-- All settings. -/
structure Settings where
  analysis : AnalysisSettings := {}
  compiler : CompilerSettings := {}
  deriving Repr

namespace Settings

/-- The keys of a mapping that are none of the known names. -/
def unknownKeys (entries : SettingValue.Entries) (known : List String) : List SettingValue :=
  (entries.map (·.1)).filter fun
    | .text s => !known.contains s
    | _ => true

/-- The entries of a mapping, all of whose keys are known names. `unknown`
makes the error for the other keys, which it gets in order. -/
def assignments (known : List String) (unknown : List SettingValue → SettingsError)
    (entries : SettingValue.Entries) : Except SettingsError Assignments :=
  match unknownKeys entries known with
  | [] => .ok (entries.filterMap fun
      | (.text s, v) => some (s, v)
      | _ => none)
  | keys =>
    match SettingValue.sort? keys with
    | some sorted =>
      .error (if sorted.all SettingValue.isWritable then unknown sorted else .unwritable)
    | none => .error .unorderedKeys

/-- The names and values in a section. A section that is not set has none. -/
def sectionAssignments (title : String) (known : List String) (value : Option SettingValue) :
    Except SettingsError Assignments :=
  let v := value.getD .null
  if v.isSet then
    match v with
    | .mapping entries => assignments known (.unknownEntries title) entries
    | _ => .error (.sectionShape title)
  else .ok []

/-- Reads the settings out of the contents of a file of the given path. -/
def ofValue (path : String) (contents : SettingValue) : Except SettingsError Settings := do
  let entries ←
    if contents.isSet then
      match contents with
      | .mapping entries => pure entries
      | _ => throw (.fileShape path)
    else pure []
  let sections ← assignments ["analysis", "compiler"] .unknownSections entries
  let analysis ← sectionAssignments AnalysisSettings.title AnalysisSettings.names
    (sections.value? "analysis")
  let analysis ← AnalysisSettings.ofAssignments analysis
  let compiler ← sectionAssignments CompilerSettings.title CompilerSettings.names
    (sections.value? "compiler")
  let compiler ← CompilerSettings.ofAssignments compiler
  return { analysis, compiler }

end Settings

end EvmToolchain
