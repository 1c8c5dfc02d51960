import Logmark.Text.Blank

/-!
Printing JSON with an indentation of two spaces. Only the quote, the backslash and the control
characters are escaped.
-/
namespace Logmark.Json

def hexDigit (n : Nat) : Char := Nat.digitChar n

/-- A character as it stands in a string. -/
def escape (c : Char) : Text :=
  if c = '"' then "\\\"".toList
  else if c = '\\' then "\\\\".toList
  else if c = '\x08' then "\\b".toList
  else if c = '\x0c' then "\\f".toList
  else if c = '\n' then "\\n".toList
  else if c = '\r' then "\\r".toList
  else if c = '\t' then "\\t".toList
  else if c.toNat < 0x20 then "\\u00".toList ++ [hexDigit (c.toNat / 16), hexDigit (c.toNat % 16)]
  else [c]

def printText (s : Text) : Text := '"' :: s.flatMap escape ++ ['"']

def printBool (b : Bool) : Text := (if b then "true" else "false").toList

def printCount (n : Nat) : Text := Nat.toDigits 10 n

/-- An object with the given names and printed values, one on a line. -/
def printObject (members : List (Text × Text)) : Text :=
  let line := fun (name, value) => "  ".toList ++ printText name ++ ": ".toList ++ value
  "\x7b\n".toList ++ ",\n".toList.intercalate (members.map line) ++ "\n\x7d".toList

end Logmark.Json
