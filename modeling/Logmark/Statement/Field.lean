import Logmark.Text.Split

/-!
Fields of a message. The fields of a message are separated by ` :: `, so a field is put into a form
that cannot hold the separator, nor build one with the separators beside it: it does not start or
end with a blank, and no space in it touches a double colon.
-/
namespace Logmark.Field

/-- What stands between the fields of a message. -/
def separator : Text := " :: ".toList

/-- Drops each space directly before a double colon. -/
def closeLeft : Text → Text
  | ' ' :: ':' :: ':' :: s => ':' :: ':' :: closeLeft s
  | c :: s => c :: closeLeft s
  | [] => []

/-- Drops each space directly after a double colon. -/
def closeRight : Text → Text
  | ':' :: ':' :: ' ' :: s => ':' :: ':' :: closeRight s
  | c :: s => c :: closeRight s
  | [] => []

/-- Drops spaces beside double colons until none is left. -/
def closeUp (s : Text) : Text :=
  let closed := closeRight (closeLeft s)
  if closed.length < s.length then closeUp closed else s
termination_by s.length

/-- The form of `value` as a field: line breaks become spaces, blanks around it are dropped, spaces
beside double colons are closed up, and `fallback` takes the place of nothing. -/
def ofText (value fallback : Text) : Text :=
  let line := value.map fun c => if c = '\n' ∨ c = '\r' then ' ' else c
  match closeUp (Text.trim line) with
  | [] => fallback
  | field => field

end Logmark.Field
