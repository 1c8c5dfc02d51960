import Logmark.Document.Basic
import Logmark.Statement.Reading

/-!
Removing the statements of a tag. Every line that is a statement goes together with its line break.
A statement on an unterminated last line takes the line break before it, so that a statement that
was appended to an unterminated text leaves no trace.
-/
namespace Logmark

/-- A text after a removal, whether it differs from the text before, and how many lines went. -/
structure Removal where
  text : Text
  changed : Bool
  removed : Nat
  deriving DecidableEq, Repr

namespace Text

/-- `s` without one line break at its end. -/
def dropFinalBreak (s : Text) : Text :=
  if s.getLast? = some '\n' then dropReturn s.dropLast else s

end Text

namespace Removal

/-- Whether a segment is a statement that no line break follows. -/
def isOpenStatement (tag : Tag) (segment : Text) : Bool :=
  segment.getLast? != some '\n' && Statement.isLine tag segment

/-- Removes every statement of `tag` from a text. -/
def ofText (tag : Tag) (s : Text) : Removal :=
  let segments := Text.segments s
  let kept := (segments.filter (!Statement.isLine tag ·)).flatten
  let text := if segments.any (isOpenStatement tag) then Text.dropFinalBreak kept else kept
  ⟨text, text ≠ s, segments.countP (Statement.isLine tag)⟩

end Removal

/-- The numbers and texts of the lines that are statements of `tag`. -/
def Document.statementLines (d : Document) (tag : Tag) : List (Nat × Text) :=
  ((Text.segments d.text).map Text.dropBreak).zipIdx.filterMap fun (line, l) =>
    if Statement.isLine tag line then some (l, line) else none

end Logmark
