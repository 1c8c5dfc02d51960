import Logmark.Json.Basic
import Logmark.Text.Width

/-!
String tokens, from behind the opening quote. A string that is kept must spell characters, so that
surrogates come in pairs; in one that is skipped any four hexadecimal digits will do.
-/
namespace Logmark.Json

/-- The characters that may not stand in a string as they are. -/
def isControl (c : Char) : Bool := c.toNat < 0x20

/-- The character that a one-letter escape stands for. -/
def escaped? : Char → Option Char
  | '"' => some '"'
  | '\\' => some '\\'
  | '/' => some '/'
  | 'b' => some '\x08'
  | 'f' => some '\x0c'
  | 'n' => some '\n'
  | 'r' => some '\r'
  | 't' => some '\t'
  | _ => none

def hexDigit? (c : Char) : Option Nat :=
  if c.isDigit then some (c.toNat - '0'.toNat)
  else if 'a' ≤ c ∧ c ≤ 'f' then some (c.toNat - 'a'.toNat + 10)
  else if 'A' ≤ c ∧ c ≤ 'F' then some (c.toNat - 'A'.toNat + 10)
  else none

/-- The unit that four hexadecimal digits spell. -/
def unit? (a b c d : Char) : Option Nat := do
  return (((← hexDigit? a) * 16 + (← hexDigit? b)) * 16 + (← hexDigit? c)) * 16 + (← hexDigit? d)

def isHighSurrogate (unit : Nat) : Bool := 0xd800 ≤ unit && unit ≤ 0xdbff

def isLowSurrogate (unit : Nat) : Bool := 0xdc00 ≤ unit && unit ≤ 0xdfff

/-- The character that a pair of surrogates spells. -/
def paired (high low : Nat) : Char :=
  Char.ofNat (0x10000 + (high - 0xd800) * 0x400 + (low - 0xdc00))

/-- The fault of an escape with less than four characters after its `u`. The four are looked for
in bytes, so a text that has the bytes is not one that ends too early. -/
def shortUnit (s : Text) : Fault := if Text.width s < 4 then .truncated else .malformed

/-- Reads a string that is kept; `seen` are the characters before `s`, latest first. -/
def readStringFrom (seen : Text) : Reader Text
  | [] => .error .truncated
  | '"' :: s => .ok (seen.reverse, s)
  | '\\' :: s =>
    match s with
    | [] => .error .truncated
    | 'u' :: s =>
      match s with
      | a :: b :: c :: d :: s =>
        match unit? a b c d with
        | none => .error .malformed
        | some unit =>
          if isLowSurrogate unit then .error .malformed
          else if isHighSurrogate unit then
            match s with
            | [] => .error .truncated
            | ['\\'] => .error .truncated
            | '\\' :: 'u' :: s =>
              match s with
              | a :: b :: c :: d :: s =>
                match unit? a b c d with
                | none => .error .malformed
                | some low =>
                  if isLowSurrogate low then readStringFrom (paired unit low :: seen) s
                  else .error .malformed
              | s => .error (shortUnit s)
            | _ => .error .malformed
          else readStringFrom (Char.ofNat unit :: seen) s
      | s => .error (shortUnit s)
    | c :: s =>
      match escaped? c with
      | none => .error .malformed
      | some c => readStringFrom (c :: seen) s
  | c :: s => if isControl c then .error .malformed else readStringFrom (c :: seen) s

/-- Reads a string that is kept, from behind its opening quote. -/
def readString : Reader Text := readStringFrom []

/-- What is left after a string that is not kept, from behind its opening quote. -/
def skipString : Text → Except Fault Text
  | [] => .error .truncated
  | '"' :: s => .ok s
  | '\\' :: s =>
    match s with
    | [] => .error .truncated
    | 'u' :: s =>
      match s with
      | a :: b :: c :: d :: s =>
        if (unit? a b c d).isSome then skipString s else .error .malformed
      | s => .error (shortUnit s)
    | c :: s => if (escaped? c).isSome then skipString s else .error .malformed
  | c :: s => if isControl c then .error .malformed else skipString s

end Logmark.Json
