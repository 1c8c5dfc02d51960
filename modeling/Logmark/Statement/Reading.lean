import Logmark.Statement.Basic
import Logmark.Text.Lines

/-!
Reading a line of source text as a log statement. A line is a statement of a tag only if every part
is in its place: the call, the tag, five fields with a line number among them, and an argument that
the last field repeats. Blanks are allowed where source text allows them, and the semicolon may be
missing.
-/
namespace Logmark.Statement

/-- The parts of a statement from the message, without what closes it, and from the argument. -/
def ofMessage? (message expression : Text) : Option Statement := do
  let (label, rest) ← Text.splitOnce? Field.separator message
  let (file, rest) ← Text.splitOnce? Field.separator rest
  let (symbol, rest) ← Text.splitOnce? Field.separator rest
  let (number, shown) ← Text.splitOnce? Field.separator rest
  if [label, file, symbol, expression].any Text.allBlank then none
  else if Text.trim shown ≠ expression then none
  else do
    let line ← Text.count? number
    some ⟨label, file, symbol, line, shown, expression⟩

/-- The text between the opening of a call with the message of `tag` and the parenthesis that
closes the call. -/
def body? (tag : Tag) (line : Text) : Option Text := do
  let line := Text.trimStart (Text.dropEndWhile Text.isBreak line)
  let rest ← callStart.isPrefixOf? line
  let rest ← ('"' :: tag.name ++ [' ']).isPrefixOf? (Text.trimStart rest)
  let rest := Text.trimEnd rest
  let rest := Text.trimEnd (([';'].isSuffixOf? rest).getD rest)
  [')'].isSuffixOf? rest

/-- Reads a line, with or without its line break, as a statement of `tag`. The expression may hold
what closes a message, so every such place is tried as the end of it. -/
def ofLine? (tag : Tag) (line : Text) : Option Statement := do
  let body ← body? tag line
  (Text.cuts messageEnd body).findSome? fun (message, argument) =>
    ofMessage? message (Text.trim argument)

/-- Whether a line is a statement of `tag`. -/
def isLine (tag : Tag) (line : Text) : Bool := (ofLine? tag line).isSome

end Logmark.Statement
