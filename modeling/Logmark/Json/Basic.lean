import Logmark.Text.Blank

/-!
Reading JSON straight into the values that are wanted, in one pass from left to right. A reader
takes the text that is left, and gives a value and what is left after it or the first fault it
meets. Loops are given a number of turns. As every turn takes a character of the text, one turn more
than the text has characters is enough for each of them, and `readAll` gives as many.
-/
namespace Logmark.Json

/-- What is wrong with a text: it is not JSON, it is JSON of another type than the one that is
wanted, or it ends too early. -/
inductive Fault where
  | malformed
  | mistyped
  | truncated
  deriving DecidableEq, Repr

abbrev Reader (α : Type) := Text → Except Fault (α × Text)

/-- The four characters that may stand between tokens. -/
def isSpace (c : Char) : Bool := c == ' ' || c == '\n' || c == '\t' || c == '\r'

def skipSpace (s : Text) : Text := s.dropWhile isSpace

/-- What is left of `s` after `word`. -/
def skipWord : (word s : Text) → Except Fault Text
  | [], s => .ok s
  | _ :: _, [] => .error .truncated
  | c :: word, d :: s => if c = d then skipWord word s else .error .malformed

/-- The value of a text that holds one value and, beside it, space only. -/
def readAll (read : (turns : Nat) → Reader α) (s : Text) : Except Fault α := do
  let (value, s) ← read (s.length + 1) s
  if skipSpace s = [] then return value else throw .malformed

end Logmark.Json
