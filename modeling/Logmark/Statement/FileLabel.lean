import Logmark.Text.Split

/-!
The short name of a file: the last two segments of its path. Both slashes separate segments, and
empty segments do not count.
-/
namespace Logmark

def isSlash (c : Char) : Bool := c == '/' || c == '\\'

/-- The segments of a path that are not empty, in order. -/
def pathSegments (path : Text) : List Text :=
  (Text.pieces isSlash path).filter (· ≠ [])

/-- The last two segments of a path, or the only one, joined by `/`. -/
def fileLabel (path : Text) : Text :=
  let segments := pathSegments path
  ['/'].intercalate (segments.drop (segments.length - 2))

end Logmark
