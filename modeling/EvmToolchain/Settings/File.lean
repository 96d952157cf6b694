import EvmToolchain.Settings.Sections
import EvmToolchain.Yaml.Value

/-!
# EvmToolchain.Settings.File

Reading settings from the text of a file.
-/

namespace EvmToolchain

/-- Why a settings file cannot be used. -/
inductive SettingsFileError
  /-- The text has no value. -/
  | malformed (e : Yaml.Error)
  | refused (e : SettingsError)
  deriving Repr

/-- Reads the settings out of the text of a file of the given path. -/
def Settings.ofText (path text : String) : Except SettingsFileError Settings :=
  match Yaml.read text with
  | .error e => .error (.malformed e)
  | .ok contents => (Settings.ofValue path contents).mapError .refused

end EvmToolchain
