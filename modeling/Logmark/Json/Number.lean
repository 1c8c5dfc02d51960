import Logmark.Json.Basic
import Logmark.Text.Numeral

/-!
Number tokens. A number that is kept must lie in the range of 64-bit binary floating point, and is
a count if it has no sign, fraction or exponent and is not larger than the largest count.
-/
namespace Logmark.Json

/-- The parts of a number token. The exponent has its sign, true for minus, and its digits. -/
structure Number where
  negative : Bool
  integer : Text
  fraction : Option Text
  exponent : Option (Bool × Text)
  deriving DecidableEq, Repr

namespace Number

/-- One digit and those that follow it. -/
def scanDigits : Reader Text
  | [] => .error .truncated
  | c :: s =>
    if c.isDigit then .ok (c :: s.takeWhile Char.isDigit, s.dropWhile Char.isDigit)
    else .error .malformed

/-- The digits before the point: a zero alone, or digits that start with another one. -/
def scanInteger : Reader Text
  | '0' :: s => if s.head?.any Char.isDigit then .error .malformed else .ok (['0'], s)
  | s => scanDigits s

def scanFraction : Reader (Option Text)
  | '.' :: s => do
    let (digits, s) ← scanDigits s
    return (some digits, s)
  | s => .ok (none, s)

def scanSign : Text → Bool × Text
  | '-' :: s => (true, s)
  | '+' :: s => (false, s)
  | s => (false, s)

def scanExponent (s : Text) : Except Fault (Option (Bool × Text) × Text) :=
  if s.head? = some 'e' ∨ s.head? = some 'E' then do
    let (negative, s) := scanSign s.tail
    let (digits, s) ← scanDigits s
    return (some (negative, digits), s)
  else .ok (none, s)

/-- The longest number that starts the text. -/
def scan (s : Text) : Except Fault (Number × Text) := do
  let negative := s.head? = some '-'
  let (integer, s) ← scanInteger (if negative then s.tail else s)
  let (fraction, s) ← scanFraction s
  let (exponent, s) ← scanExponent s
  return (⟨negative, integer, fraction, exponent⟩, s)

/-- Takes digits into a significand as long as it stays a count. Gives the significand and the
digits that were not taken. -/
def absorb (significand : Nat) : Text → Nat × Text
  | [] => (significand, [])
  | c :: digits =>
    let next := significand * 10 + (c.toNat - '0'.toNat)
    if next ≤ maxCount then absorb next digits else (significand, c :: digits)

/-- The count and the power of ten whose product the number is taken for. -/
def parts (n : Number) : Nat × Int :=
  let (significand, dropped) := absorb 0 n.integer
  let fraction := n.fraction.getD []
  let (significand, ignored) := absorb significand fraction
  let exponent : Int :=
    match n.exponent with
    | none => 0
    | some (negative, digits) =>
      let size : Int := Nat.ofDigitChars 10 digits 0
      if negative then -size else size
  (significand, exponent + dropped.length - (fraction.length - ignored.length : Nat))

/-- The nearest number with 53 binary digits, of two the one whose last digit is zero. -/
def round53 (n : Nat) : Nat :=
  if n < Nat.pow 2 53 then n
  else
    let unit := Nat.pow 2 (n.log2 - 52)
    let quotient := n / unit
    let twice := 2 * (n % unit)
    let up := unit < twice ∨ (unit = twice ∧ quotient % 2 = 1)
    (if up then quotient + 1 else quotient) * unit

/-- Whether a significand times a power of ten, both rounded and the product rounded again, passes
the largest floating-point number. -/
def isHuge (significand : Nat) (exponent : Int) : Bool :=
  significand ≠ 0 &&
    (308 < exponent ||
      (0 ≤ exponent &&
        Nat.pow 2 1024 - Nat.pow 2 970 ≤
          round53 significand * round53 (Nat.pow 10 exponent.toNat)))

/-- The number as a count. -/
def count? (n : Number) : Option Nat :=
  if n.negative then none
  else match n.fraction, n.exponent with
    | none, none => Text.count? n.integer
    | _, _ => none

end Number

/-- Reads a number that is kept. -/
def readNumber : Reader Number := fun s => do
  let (n, s) ← Number.scan s
  if Number.isHuge n.parts.1 n.parts.2 then throw .malformed
  return (n, s)

/-- What is left after a number that is not kept. Its size does not matter, and one that the text
cuts short is as bad as any other that is not a number. -/
def skipNumber (s : Text) : Except Fault Text :=
  match Number.scan s with
  | .ok (_, s) => .ok s
  | .error _ => .error .malformed

end Logmark.Json
