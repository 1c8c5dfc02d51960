import Logmark.Files.Basic
import Logmark.Files.Path
import Logmark.Statement.Entry

/-!
The label of a workspace: the name of the repository around a file. A directory is the root of a
repository if it has an entry `.git` of any kind.
-/
namespace Logmark

/-- The entry that marks the root of a repository. -/
def repositoryMark : Text := ".git".toList

/-- The name of the nearest directory above a file that is the root of a repository and has a name.
If there is none it is the name of the file's directory. -/
def workspaceLabel [Monad m] [Files m] (path : Text) : m Text := do
  let path := (← Files.canonical? path).getD path
  let root? ← (Path.ancestors path).findSomeM? fun directory => do
    if ← Files.isThere (Path.entry directory repositoryMark) then return Path.name? directory
    else return none
  return (root? <|> (Path.parent? path).bind Path.name?).getD unknownWorkspace

end Logmark
