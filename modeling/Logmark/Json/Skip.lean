import Logmark.Json.Number
import Logmark.Json.StringToken

/-!
Skipping a value of any kind. Nothing is kept of it, but it must be JSON. The open arrays and
objects are held in a list, so that values may nest to any depth.
-/
namespace Logmark.Json

/-- An array or object that is open. -/
inductive Frame where
  | array
  | object
  deriving DecidableEq, Repr

/-- What is left after a value that is neither an array nor an object. -/
def skipScalar : Text → Except Fault Text
  | [] => .error .truncated
  | 'n' :: s => skipWord "ull".toList s
  | 't' :: s => skipWord "rue".toList s
  | 'f' :: s => skipWord "alse".toList s
  | '"' :: s => skipString s
  | c :: s => if c = '-' ∨ c.isDigit then skipNumber (c :: s) else .error .malformed

/-- What is left after a colon. -/
def skipColon (s : Text) : Except Fault Text :=
  match skipSpace s with
  | [] => .error .truncated
  | ':' :: s => .ok s
  | _ => .error .malformed

/-- What is left after a key that is not kept and the colon behind it. -/
def skipKey (s : Text) : Except Fault Text :=
  match skipSpace s with
  | [] => .error .truncated
  | '"' :: s => skipString s >>= skipColon
  | _ => .error .malformed

/-- Where a skipping reader stands: at the start of a value or behind one. -/
inductive Place where
  | before
  | after
  deriving DecidableEq, Repr

/-- Skips one token after the other. Gives the next place, the frames that are open there and the
text that is left. -/
def skipStep : Place → List Frame → Text → Except Fault (Place × List Frame × Text)
  | .before, frames, s =>
    match skipSpace s with
    | '[' :: s =>
      match skipSpace s with
      | ']' :: s => .ok (.after, frames, s)
      | s => .ok (.before, .array :: frames, s)
    | '\x7b' :: s =>
      match skipSpace s with
      | '\x7d' :: s => .ok (.after, frames, s)
      | s => do
        let s ← skipKey s
        return (.before, .object :: frames, s)
    | s => do
      let s ← skipScalar s
      return (.after, frames, s)
  | .after, frames, s =>
    match frames, skipSpace s with
    | [], _ => .ok (.after, [], s)
    | _, [] => .error .truncated
    | .array :: frames, ',' :: s => .ok (.before, .array :: frames, s)
    | .object :: frames, ',' :: s => do
      let s ← skipKey s
      return (.before, .object :: frames, s)
    | .array :: frames, ']' :: s => .ok (.after, frames, s)
    | .object :: frames, '\x7d' :: s => .ok (.after, frames, s)
    | _, _ => .error .malformed

/-- Takes steps until a value ends outside all frames. Every step that does not fail takes a
character of the text. -/
def skipSteps : Nat → Place → List Frame → Text → Except Fault Text
  | _, .after, [], s => .ok s
  | 0, _, _, _ => .error .malformed
  | turns + 1, place, frames, s =>
    match skipStep place frames s with
    | .ok (place, frames, s) => skipSteps turns place frames s
    | .error fault => .error fault

/-- What is left after a value of any kind. -/
def skipValue (turns : Nat) (s : Text) : Except Fault Text := skipSteps turns .before [] s

end Logmark.Json
