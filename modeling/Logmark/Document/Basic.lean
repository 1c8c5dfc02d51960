import Logmark.Text.Lines

/-!
A document is a text together with the line break that is used when lines are added to it. The
break is settled when the document is made, by the first one in the text.
-/
namespace Logmark

inductive LineBreak where
  | lf
  | crlf
  deriving DecidableEq, Repr

namespace LineBreak

def text : LineBreak → Text
  | lf => ['\n']
  | crlf => ['\r', '\n']

/-- The break at the end of the first line of `s`; a line feed if `s` has one line only. -/
def ofText (s : Text) : LineBreak :=
  match (Text.lines s).head? with
  | some first => if first ≠ s ∧ first.getLast? = some '\r' then crlf else lf
  | none => lf

end LineBreak

structure Document where
  text : Text
  lineBreak : LineBreak
  deriving DecidableEq, Repr

namespace Document

def ofText (s : Text) : Document := ⟨s, LineBreak.ofText s⟩

@[simp] theorem text_ofText (s : Text) : (ofText s).text = s := rfl

/-- A document has one line more than it has line feeds. -/
def lineCount (d : Document) : Nat := (Text.lines d.text).length

/-- The text of line `l` without its line break. -/
def line? (d : Document) (l : Nat) : Option Text :=
  (Text.lines d.text)[l]?.map Text.dropReturn

theorem lineCount_pos (d : Document) : 0 < d.lineCount := by
  rw [lineCount, Text.lines, Text.length_pieces]; omega

end Document
end Logmark
