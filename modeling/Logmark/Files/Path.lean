import Logmark.Text.Split

/-!
Paths as they are written, without a look at any file. Slashes separate the segments of a path;
empty segments and single dots do not count, except that a slash at the start makes the path
absolute and that a dot at the start is a directory of its own.
-/
namespace Logmark.Path

def segments (path : Text) : List Text := Text.pieces (· == '/') path

def isAbsolute (path : Text) : Bool := path.head? = some '/'

/-- The segment that stands for the directory itself. -/
def here : Text := ['.']

/-- The segment that leads to the directory above. -/
def up : Text := ['.', '.']

/-- A segment that changes nothing behind another one. -/
def isIdle (segment : Text) : Bool := segment = [] || segment = here

/-- The path with the given first and further segments. -/
def ofSegments (first : Text) (rest : List Text) : Text :=
  if first = [] ∧ rest = [] then ['/'] else ['/'].intercalate (first :: rest)

/-- The paths that are left of one when segments that count are cut off at its end, longest first.
The further segments of the path come last first. -/
def ancestorsFrom (first : Text) : List Text → List Text
  | [] => if first = [] then [] else [[]]
  | segment :: rest =>
    if isIdle segment then ancestorsFrom first rest
    else ofSegments first (rest.dropWhile isIdle).reverse :: ancestorsFrom first rest

/-- The directories that a path lies in, the nearest first. A relative path lies, last of all, in
the directory without a name. -/
def ancestors (path : Text) : List Text :=
  match segments path with
  | [] => []
  | first :: rest => ancestorsFrom first rest.reverse

/-- The directory that a path lies in. -/
def parent? (path : Text) : Option Text := (ancestors path).head?

/-- The last segment that counts, if it is a name. -/
def name? (path : Text) : Option Text :=
  match segments path with
  | [] => none
  | first :: rest =>
    let last := ((rest.reverse.dropWhile isIdle).head?).getD first
    if isIdle last ∨ last = up then none else some last

/-- The path of an entry of a directory. -/
def entry (directory name : Text) : Text :=
  if directory = [] ∨ directory.getLast? = some '/' then directory ++ name
  else directory ++ '/' :: name

end Logmark.Path
