import Logmark.Text.Blank

/-!
Decimal numerals of 64-bit counts. Every count of the library is at most `maxCount`; sums that
would pass it stay there.
-/
namespace Logmark

/-- The largest 64-bit count, one below the 64th power of two. -/
def maxCount : Nat := 18446744073709551615

/-- The next count, except that the largest is followed by itself. -/
def nextCount (n : Nat) : Nat := min (n + 1) maxCount

namespace Text

def numeral (n : Nat) : Text := Nat.toDigits 10 n

/-- The value of a text of ASCII digits, if it is a count. Leading zeros are allowed, signs are
not. -/
def count? (s : Text) : Option Nat :=
  if s ≠ [] ∧ s.all Char.isDigit then
    let n := Nat.ofDigitChars 10 s 0
    if n ≤ maxCount then some n else none
  else none

/-- As `count?`, with one optional plus sign before the digits. -/
def signedCount? : Text → Option Nat
  | '+' :: s => count? s
  | s => count? s

end Text
end Logmark
