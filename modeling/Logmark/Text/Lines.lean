import Logmark.Text.Split

/-!
The lines of a text, in two views. `lines` are the texts between the line feeds: there is one more
of them than there are line feeds, and the last may be empty. `segments` keep the line feed that
ends them, so that they concatenate to the text; the last is never empty.
-/
namespace Logmark.Text

def isBreak (c : Char) : Bool := c == '\n' || c == '\r'

def lines (s : Text) : List Text := pieces (· == '\n') s

/-- The text cut after each line feed. -/
def segments (s : Text) : List Text :=
  s.foldr (fun c rest =>
    if c = '\n' then [c] :: rest
    else match rest with
      | [] => [[c]]
      | first :: rest => (c :: first) :: rest) []

theorem segments_cons (c : Char) (s : Text) :
    segments (c :: s) =
      if c = '\n' then [c] :: segments s
      else match segments s with
        | [] => [[c]]
        | first :: rest => (c :: first) :: rest := rfl

@[simp] theorem flatten_segments (s : Text) : (segments s).flatten = s := by
  induction s with
  | nil => rfl
  | cons c s ih =>
    rw [segments_cons]
    split
    · simp [ih]
    · split <;> simp_all

/-- A line without the one carriage return that may end it. -/
def dropReturn (line : Text) : Text :=
  if line.getLast? = some '\r' then line.dropLast else line

/-- A segment without its line feed and the carriage return before that. A segment without a line
feed keeps all it has. -/
def dropBreak (segment : Text) : Text :=
  if segment.getLast? = some '\n' then dropReturn segment.dropLast else segment

/-- `s` cut before its line number `l`, if it has that many lines. -/
def cutAtLine? (l : Nat) (s : Text) : Option (Text × Text) :=
  if l < (lines s).length then
    some (((lines s).take l).flatMap (· ++ ['\n']), ['\n'].intercalate ((lines s).drop l))
  else none

end Logmark.Text
