import Logmark.Text.Utf8

/-!
What the commands ask of a file system. Paths are texts; an operation that cannot be carried out
answers so and changes no file.
-/
namespace Logmark

/-- A monad with files. -/
class Files (m : Type → Type) where
  /-- Whether there is a regular file. -/
  isFile : Text → m Bool
  /-- Whether there is anything at all. -/
  isThere : Text → m Bool
  /-- The content of a file. -/
  read? : Text → m (Option ByteArray)
  /-- The absolute path without dots, if there is anything at the path. -/
  canonical? : Text → m (Option Text)
  /-- Makes a directory and those above it, where they are missing. -/
  makeDirectory : Text → m Bool
  /-- Writes a file, new or not. -/
  write : Text → ByteArray → m Bool
  /-- Puts a new content in place of the content of a file, all at once. -/
  replace : Text → ByteArray → m Bool

/-- The text in a file. -/
def Files.readText? [Monad m] [Files m] (path : Text) : m (Option Text) := do
  return (← Files.read? path).bind Text.decode?

end Logmark
