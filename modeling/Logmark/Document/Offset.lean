import Logmark.Document.Basic
import Logmark.Position.Basic
import Logmark.Text.Width

/-!
Positions and offsets in a document. An offset counts the bytes of UTF-8 before a place; an index
counts the characters. Positions past the end of a line stand for the end of that line, and lines
past the last for the end of the document.
-/
namespace Logmark.Document

/-- The number of characters before a position. -/
def indexAt (d : Document) (p : Position) : Nat :=
  match Text.cutAtLine? p.line d.text, d.line? p.line with
  | some (before, _), some line => before.length + min p.column line.length
  | _, _ => d.text.length

/-- The number of bytes before a position. -/
def offsetAt (d : Document) (p : Position) : Nat := Text.width (d.text.take (d.indexAt p))

/-- The position of an offset. An offset inside a character stands for the start of it, one past
the end for the end; carriage returns at the end of the text before it are not counted. -/
def positionAt (d : Document) (offset : Nat) : Position :=
  let before := Text.takeWidth offset d.text
  let lastLine := (before.reverse.takeWhile (· != '\n')).reverse
  ⟨before.count '\n', (Text.dropEndWhile (· == '\r') lastLine).length⟩

/-- The text between the two ends of a range, in whichever order they stand. -/
def textIn (d : Document) (r : Range) : Text :=
  let i := d.indexAt r.start
  let j := d.indexAt r.stop
  (d.text.take (max i j)).drop (min i j)

end Logmark.Document
