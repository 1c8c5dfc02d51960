import Logmark.Document.Insert
import Logmark.Document.Offset
import Logmark.Statement.Entry

/-!
Planning an insertion: from what the user points at to the statement and its place. What can fail
is the target: a line that the document does not have, or an expression that is blank or runs over
several lines.
-/
namespace Logmark

/-- What is to be logged: the text of a range, or a given expression with the cursor on a line. -/
inductive Target where
  | selection (range : Range)
  | expression (line : Nat) (text : Text)
  deriving DecidableEq, Repr

/-- Why nothing can be inserted. `pastEnd` has the line's number, counted from one, and the number
of lines there are; `unnumbered` is a line whose number counted from one is too large for a
count. -/
inductive InsertionError where
  | pastEnd (number : Nat) (lineCount : Nat)
  | unnumbered (line : Nat)
  | emptySelection
  | multiLineSelection
  deriving DecidableEq, Repr

namespace InsertionError

/-- The detail of a position outside the document. -/
def pastEndDetail (number lineCount : Nat) : Text :=
  "line ".toList ++ Text.numeral number ++ " is past the end of the document (".toList ++
    Text.numeral lineCount ++ " lines)".toList

def message : InsertionError → Text
  | pastEnd number lineCount => "Invalid position: ".toList ++ pastEndDetail number lineCount
  | unnumbered _ => "Invalid position: line number out of range".toList
  | emptySelection => "Please select a variable or expression to log.".toList
  | multiLineSelection =>
    "Selection spans multiple lines; select a single-line expression to log.".toList

end InsertionError

namespace Target

/-- The position that decides about the line and the symbol of the statement. -/
def cursor : Target → Position
  | selection range => range.stop
  | expression line _ => ⟨line, 0⟩

/-- The expression in `d` that is to be logged, blanks around it set aside. -/
def selected (d : Document) : Target → Text
  | selection range => Text.trim (d.textIn range)
  | expression _ text => Text.trim text

end Target

/-- The number of a line counted from one, if it is a count. -/
def lineNumber? (line : Nat) : Option Nat := if line < maxCount then some (line + 1) else none

/-- Accepts the lines of a document. -/
def Document.checkLine (d : Document) (line : Nat) : Except InsertionError Unit :=
  if line < d.lineCount then .ok ()
  else match lineNumber? line with
    | some number => .error (.pastEnd number d.lineCount)
    | none => .error (.unnumbered line)

/-- Where and how an insertion is made, apart from its target. -/
structure InsertionContext where
  outline : Outline
  label : Text
  path : Text
  tag : Tag

/-- The expression that a target selects, and the statement that logs it. -/
def Document.planInsertion (d : Document) (target : Target) (context : InsertionContext) :
    Except InsertionError (Text × Entry) := do
  d.checkLine target.cursor.line
  let selected := target.selected d
  if selected = [] then throw .emptySelection
  if selected.any Text.isBreak then throw .multiLineSelection
  let symbol := Outline.locate target.cursor context.outline
  let site : Site := ⟨context.label, context.path, target.cursor.line⟩
  return (selected, Entry.ofSelection context.tag selected site symbol)

/-- The document with the line of `entry` in its place. -/
def Document.insertEntry (d : Document) (entry : Entry) : Document :=
  d.insertLine entry.insertionLine entry.text

end Logmark
