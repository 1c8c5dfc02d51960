import Logmark.Position.Basic
import Logmark.Text.Split

/-!
Addresses: positions and ranges as a user writes them. An address is `LINE` or `LINE:COL`, both
counted from one; a range is one address or two with a hyphen between them.
-/
namespace Logmark

/-- Why an address names no position. Each case holds the text that was given. -/
inductive AddressError where
  | unreadable (given : Text)
  | notOneBased (given : Text)
  deriving DecidableEq, Repr

namespace AddressError

def message : AddressError → Text
  | unreadable given => "Invalid position: expected LINE[:COL], got '".toList ++ given ++ ['\'']
  | notOneBased given => "Invalid position: positions are 1-based, got '".toList ++ given ++ ['\'']

end AddressError

namespace Position

/-- Reads an address. A missing column is the first one. -/
def ofAddress (s : Text) : Except AddressError Position :=
  let (line, column) := (Text.splitOnce? [':'] (Text.trim s)).getD (Text.trim s, ['1'])
  match Text.signedCount? line, Text.signedCount? column with
  | some (l + 1), some (c + 1) => .ok ⟨l, c⟩
  | some _, some _ => .error (.notOneBased s)
  | _, _ => .error (.unreadable s)

/-- The address of a position. -/
def address (p : Position) : Text :=
  Text.numeral (nextCount p.line) ++ ':' :: Text.numeral (nextCount p.column)

end Position

namespace Range

/-- Reads one address, or two with a hyphen between them, and puts the ends in order. -/
def ofAddresses (s : Text) : Except AddressError Range :=
  match Text.splitOnce? ['-'] s with
  | some (first, last) => do
    let p ← Position.ofAddress first
    let q ← Position.ofAddress last
    return between p q
  | none => do
    let p ← Position.ofAddress s
    return between p p

end Range
end Logmark
