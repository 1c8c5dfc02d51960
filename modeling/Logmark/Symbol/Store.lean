import Logmark.Files.Load
import Logmark.Symbol.Reading

/-!
Outlines in files.
-/
namespace Logmark.Outline

variable {m : Type → Type} [Monad m] [Files m]

def load (path : Text) : m (Except LoadError Outline) := Files.load ofJson path

/-- The outline in a file, or the empty one if no file is named or it holds none. -/
def loadOrEmpty (path? : Option Text) : m Outline := do
  match path? with
  | none => return []
  | some path => return (← load path).toOption.getD []

end Logmark.Outline
