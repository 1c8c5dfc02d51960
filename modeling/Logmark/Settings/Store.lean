import Logmark.Files.Load
import Logmark.Files.Path
import Logmark.Settings.Basic

/-!
Settings in a file. A missing file stands for the standard settings.
-/
namespace Logmark

/-- Why settings cannot be saved. -/
inductive SaveError where
  | noDirectory (path : Text)
  | unwritable
  deriving DecidableEq, Repr

variable {m : Type → Type} [Monad m] [Files m]

namespace Settings

/-- The path of the settings file below a directory for configuration. -/
def pathIn (directory : Text) : Text := Path.entry directory "ezlog/settings.json".toList

/-- The path of the settings file that is in use unless another is named. The directory for
configuration is the one that is set, if its path is absolute, and else one in the home
directory. -/
def usualPath? (configuration? home? : Option Text) : Option Text :=
  match configuration?.filter Path.isAbsolute, home?.filter (· ≠ []) with
  | some configuration, _ => some (pathIn configuration)
  | none, some home => some (pathIn (Path.entry home ".config".toList))
  | none, none => none

def load (path : Text) : m (Except LoadError Settings) := do
  if ← Files.isThere path then Files.load ofJson path else return .ok standard

/-- Writes the settings to a file, whose directory is made if it is missing. -/
def save (settings : Settings) (path : Text) : m (Except SaveError Unit) := do
  let directory := (Path.parent? path).getD []
  let made ← if directory = [] then pure true else Files.makeDirectory directory
  if made then
    if ← Files.write path (Text.encode settings.toJson) then return .ok ()
    else return .error .unwritable
  else return .error (.noDirectory directory)

end Settings

/-- Why there is no tag to use. -/
inductive TagChoiceError where
  | invalid (error : TagError)
  | noSettingsPath
  | unloadable (path : Text) (error : LoadError)
  deriving DecidableEq, Repr

/-- The tag that is asked for, or the one in the settings file if none is. -/
def Tag.choose (asked? settingsPath? : Option Text) : m (Except TagChoiceError Tag) := do
  match asked?, settingsPath? with
  | some asked, _ => return (Tag.ofText asked).mapError .invalid
  | none, none => return .error .noSettingsPath
  | none, some path =>
    return ((← Settings.load path).map (·.tag)).mapError (.unloadable path)

end Logmark
