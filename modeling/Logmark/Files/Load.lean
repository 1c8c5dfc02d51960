import Logmark.Files.Basic
import Logmark.Json.Basic

/-!
Values that are kept in files as JSON.
-/
namespace Logmark

/-- Why a file gives no value: there is no text in it, or the text spells none. -/
inductive LoadError where
  | unreadable
  | json (fault : Json.Fault)
  deriving DecidableEq, Repr

/-- The value in a file, as `ofJson` reads it. -/
def Files.load [Monad m] [Files m] (ofJson : Text → Except Json.Fault α) (path : Text) :
    m (Except LoadError α) := do
  match ← Files.readText? path with
  | none => return .error .unreadable
  | some text => return (ofJson text).mapError .json

end Logmark
