import Logmark.Statement.Basic
import Logmark.Statement.FileLabel
import Logmark.Symbol.Basic

/-!
Making a statement for an expression. The statement goes on the line after the symbol around the
cursor, where the value it logs is complete, or after the cursor's own line if there is no symbol.
-/
namespace Logmark

/-- The label of an unnamed workspace. -/
def unknownWorkspace : Text := "UnknownRepo".toList

/-- The label of a file whose path has no segments. -/
def unknownFile : Text := "unknown file".toList

/-- A statement as a line of text, and the line it is inserted before. -/
structure Entry where
  text : Text
  insertionLine : Nat
  deriving DecidableEq, Repr

/-- Where a statement is made: the workspace's label, the file's path and the cursor's line. -/
structure Site where
  label : Text
  path : Text
  cursorLine : Nat
  deriving DecidableEq, Repr

namespace Statement

/-- The statement that logs `selected`. -/
def ofSelection (selected : Text) (site : Site) (symbol : Option Symbol) : Statement where
  label := Field.ofText site.label unknownWorkspace
  file := Field.ofText (fileLabel site.path) unknownFile
  symbol := Field.ofText ((symbol.map (·.name)).getD []) Symbol.unknownName
  line := nextCount site.cursorLine
  shown := selected
  expression := selected

end Statement

namespace Entry

def ofSelection (tag : Tag) (selected : Text) (site : Site) (symbol : Option Symbol) : Entry where
  text := (Statement.ofSelection selected site symbol).render tag
  insertionLine := nextCount ((symbol.map (·.range.stop.line)).getD site.cursorLine)

end Entry
end Logmark
