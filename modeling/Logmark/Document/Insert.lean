import Logmark.Document.Basic

/-!
Adding a line to a document. A line added past the last one goes to the end: after the last line
break if the text ends with one, and else after a new line break, with none of its own, so that
what was there before stays as it was.
-/
namespace Logmark.Document

/-- The document with `content` as a new line at its end. -/
def appendLine (d : Document) (content : Text) : Document :=
  if d.text = [] ∨ d.text.getLast? = some '\n' then
    { d with text := d.text ++ content ++ d.lineBreak.text }
  else
    { d with text := d.text ++ d.lineBreak.text ++ content }

/-- The document with `content` as a new line before line `l`. -/
def insertLine (d : Document) (l : Nat) (content : Text) : Document :=
  match Text.cutAtLine? l d.text with
  | some (before, after) =>
    if after = [] ∧ before ≠ [] then d.appendLine content
    else { d with text := before ++ content ++ d.lineBreak.text ++ after }
  | none => d.appendLine content

end Logmark.Document
