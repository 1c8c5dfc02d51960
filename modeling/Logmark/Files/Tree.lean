import Logmark.Files.Basic
import Logmark.Files.Path

/-!
Directory trees as values. A tree without links is enough to say what every operation on files
does: a path leads, segment by segment, to a place in the tree, and `..` goes back to the directory
above.
-/
namespace Logmark

inductive Tree where
  | file (content : ByteArray)
  | directory (entries : List (Text × Tree))

namespace Tree

def empty : Tree := directory []

instance : Inhabited Tree := ⟨empty⟩

def entry? (name : Text) : Tree → Option Tree
  | file _ => none
  | directory entries => entries.lookup name

/-- What stands at the end of a row of names. -/
def get? (tree : Tree) : List Text → Option Tree
  | [] => some tree
  | name :: names => (tree.entry? name).bind (·.get? names)

def isDirectory : Tree → Bool
  | directory _ => true
  | file _ => false

def content? : Tree → Option ByteArray
  | file content => some content
  | directory _ => none

/-- `entries` with `tree` under `name`. -/
def setEntry (name : Text) (tree : Tree) : List (Text × Tree) → List (Text × Tree)
  | [] => [(name, tree)]
  | entry :: entries =>
    if entry.1 = name then (name, tree) :: entries else entry :: setEntry name tree entries

/-- The tree with another one in its place at the end of a row of names. Directories on the way that
are missing are made. -/
def set : Tree → List Text → Tree → Tree
  | _, [], new => new
  | directory entries, name :: names, new =>
    directory (setEntry name (set ((entries.lookup name).getD empty) names new) entries)
  | file content, _ :: _, _ => file content

mutual

/-- The names that lead to each file, and its content. -/
def contents : Tree → List (List Text × ByteArray)
  | file content => [([], content)]
  | directory entries => contentsOfEntries entries

def contentsOfEntries : List (Text × Tree) → List (List Text × ByteArray)
  | [] => []
  | (name, tree) :: entries =>
    tree.contents.map (fun (names, content) => (name :: names, content)) ++
      contentsOfEntries entries

end

end Tree

/-- A tree and the names that lead from its root to the working directory. -/
structure World where
  root : Tree
  current : List Text
  deriving Inhabited

namespace World

def isDirectoryAt (w : World) (names : List Text) : Bool :=
  (w.root.get? names).any Tree.isDirectory

/-- Goes on from a directory by one segment of a path. -/
def step? (w : World) (names : List Text) (segment : Text) : Option (List Text) :=
  if ¬ w.isDirectoryAt names then none
  else if Path.isIdle segment then some names
  else if segment = Path.up then some names.dropLast
  else if (w.root.get? (names ++ [segment])).isSome then some (names ++ [segment])
  else none

/-- Where a path starts. -/
def origin (w : World) (path : Text) : List Text := if Path.isAbsolute path then [] else w.current

/-- The names that a path leads to, if there is anything there. The empty path leads nowhere. -/
def resolve? (w : World) (path : Text) : Option (List Text) :=
  if path = [] then none else (Path.segments path).foldlM w.step? (w.origin path)

/-- What a path leads to. -/
def find? (w : World) (path : Text) : Option Tree := (w.resolve? path).bind w.root.get?

/-- The names of a file that can be written at a path: a name in a directory that is there, with no
directory under it. -/
def place? (w : World) (path : Text) : Option (List Text) := do
  let segments := Path.segments path
  let name ← segments.getLast?
  let directory ← segments.dropLast.foldlM w.step? (w.origin path)
  if Path.isIdle name ∨ name = Path.up ∨ ¬ w.isDirectoryAt directory then none
  else if w.isDirectoryAt (directory ++ [name]) then none
  else some (directory ++ [name])

def setAt (w : World) (names : List Text) (tree : Tree) : World :=
  { w with root := w.root.set names tree }

/-- Writes a file. -/
def write (w : World) (path : Text) (content : ByteArray) : Bool × World :=
  match w.place? path with
  | some names => (true, w.setAt names (.file content))
  | none => (false, w)

/-- Follows segments from a directory, and makes the directories that are missing on the way. -/
def makeDirectories (w : World) (names : List Text) : List Text → Bool × World
  | [] => (w.isDirectoryAt names, w)
  | segment :: segments =>
    if ¬ w.isDirectoryAt names then (false, w)
    else if Path.isIdle segment then w.makeDirectories names segments
    else if segment = Path.up then w.makeDirectories names.dropLast segments
    else if (w.root.get? (names ++ [segment])).isSome then
      w.makeDirectories (names ++ [segment]) segments
    else (w.setAt (names ++ [segment]) .empty).makeDirectories (names ++ [segment]) segments

instance : Files (StateM World) where
  isFile path := return ((← get).find? path).any (!·.isDirectory)
  isThere path := return ((← get).find? path).isSome
  read? path := return ((← get).find? path).bind Tree.content?
  canonical? path := return ((← get).resolve? path).map (Path.ofSegments [])
  makeDirectory path := modifyGet fun w => w.makeDirectories (w.origin path) (Path.segments path)
  write path content := modifyGet (·.write path content)
  replace path content := modifyGet (·.write path content)

end World
end Logmark
