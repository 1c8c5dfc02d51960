import Logmark.Json.Container

/-!
The grammar of JSON. A text is described by how it is put together: a string by the characters that
it spells, each as it stands or by an escape, a number by its parts, an array or object by its
items. Members of an object are written with their names, so that it can be said which of them there
are.
-/
namespace Logmark.Json

/-- The characters that may stand between tokens. -/
def Spaces (w : Text) : Prop := ∀ c ∈ w, c ∈ [' ', '\n', '\t', '\r']

/-- The characters that stand before and behind values. -/
def outside : List Char := [' ', '\n', '\t', '\r', ',', ']', '\x7d']

/-- A value may end before this text. -/
def Ends (s : Text) : Prop := ∀ c, s.head? = some c → c ∈ outside

/-- This text begins as a value does. -/
def Starts (s : Text) : Prop := ∃ c t, s = c :: t ∧ c ∉ outside

/-- A hexadecimal digit of either case. -/
def IsHex (n : Nat) (c : Char) : Prop :=
  n < 16 ∧ (c = Nat.digitChar n ∨ c = (Nat.digitChar n).toUpper)

/-- A number of four hexadecimal digits. -/
inductive IsUnit : Nat → Text → Prop
  | digits {i j k l : Nat} {a b c d : Char} : IsHex i a → IsHex j b → IsHex k c → IsHex l d →
    IsUnit (((i * 16 + j) * 16 + k) * 16 + l) [a, b, c, d]

/-- The letters of escapes, with the characters that they stand for. -/
def letterEscapes : List (Char × Char) :=
  [('"', '"'), ('\\', '\\'), ('/', '/'), ('b', '\x08'), ('f', '\x0c'), ('n', '\n'), ('r', '\r'),
    ('t', '\t')]

/-- A character that stands in a string as it is. -/
def IsPlain (c : Char) : Prop := 0x20 ≤ c.toNat ∧ c ≠ '"' ∧ c ≠ '\\'

/-- How a character is written in a string: as it is, by a letter, by its code or, if that has more
than four digits, by a pair of surrogates. -/
inductive SpellsChar (c : Char) : Text → Prop
  | plain : IsPlain c → SpellsChar c [c]
  | letter {letter : Char} : (letter, c) ∈ letterEscapes → SpellsChar c ['\\', letter]
  | unit {digits : Text} : IsUnit c.toNat digits → SpellsChar c ('\\' :: 'u' :: digits)
  | pair {i j : Nat} {high low : Text} : i < 0x400 → j < 0x400 →
    c.toNat = 0x10000 + i * 0x400 + j → IsUnit (0xd800 + i) high → IsUnit (0xdc00 + j) low →
    SpellsChar c ('\\' :: 'u' :: high ++ '\\' :: 'u' :: low)

/-- A text as it is written in a string. -/
inductive Spells : Text → Text → Prop
  | nil : Spells [] []
  | cons {c : Char} {t written body : Text} : SpellsChar c written → Spells t body →
    Spells (c :: t) (written ++ body)

/-- A string that need not spell a text, since surrogates may stand alone in it. -/
inductive IsBody : Text → Prop
  | nil : IsBody []
  | plain {c : Char} {body : Text} : IsPlain c → IsBody body → IsBody (c :: body)
  | letter {letter c : Char} {body : Text} : (letter, c) ∈ letterEscapes → IsBody body →
    IsBody ('\\' :: letter :: body)
  | unit {n : Nat} {digits body : Text} : IsUnit n digits → IsBody body →
    IsBody ('\\' :: 'u' :: (digits ++ body))

/-- A text in quotes. -/
def IsText (t v : Text) : Prop := ∃ body, Spells t body ∧ v = '"' :: (body ++ ['"'])

def IsDigits (s : Text) : Prop := s ≠ [] ∧ ∀ c ∈ s, c.isDigit = true

namespace Number

inductive IsFraction : Option Text → Text → Prop
  | absent : IsFraction none []
  | present {digits : Text} : IsDigits digits → IsFraction (some digits) ('.' :: digits)

inductive IsSign : Bool → Text → Prop
  | absent : IsSign false []
  | plus : IsSign false ['+']
  | minus : IsSign true ['-']

inductive IsExponent : Option (Bool × Text) → Text → Prop
  | absent : IsExponent none []
  | present {e : Char} {negative : Bool} {sign digits : Text} : e = 'e' ∨ e = 'E' →
    IsSign negative sign → IsDigits digits →
    IsExponent (some (negative, digits)) (e :: (sign ++ digits))

/-- How a number is written from its parts. Only a zero alone may start with one. -/
inductive IsWritten : Number → Text → Prop
  | parts {negative : Bool} {integer tail tail' : Text} {fraction : Option Text}
    {exponent : Option (Bool × Text)} : IsDigits integer →
    (integer.head? = some '0' → integer = ['0']) → IsFraction fraction tail →
    IsExponent exponent tail' →
    IsWritten ⟨negative, integer, fraction, exponent⟩
      ((if negative then ['-'] else []) ++ (integer ++ (tail ++ tail')))

end Number

def Frame.opening : Frame → Char
  | array => '['
  | object => '\x7b'

def Frame.closing : Frame → Char
  | array => ']'
  | object => '\x7d'

/-- What stands behind an opening bracket, if `first`, and else behind an item, up to the closing
bracket: items with commas between them. -/
inductive Listed (frame : Frame) : (first : Bool) → (items : List Text) → Text → Prop
  | done {first : Bool} {w : Text} : Spaces w → Listed frame first [] (w ++ [frame.closing])
  | start {w item rest : Text} {items : List Text} : Spaces w → Listed frame false items rest →
    Listed frame true (item :: items) (w ++ (item ++ rest))
  | next {w w' item rest : Text} {items : List Text} : Spaces w → Spaces w' →
    Listed frame false items rest →
    Listed frame false (item :: items) (w ++ ',' :: (w' ++ (item ++ rest)))

/-- Items in brackets. -/
inductive Enclosed (frame : Frame) (items : List Text) : Text → Prop
  | brackets {t : Text} : Listed frame true items t → Enclosed frame items (frame.opening :: t)

/-- A key that need not spell a text, and the colon behind it. -/
def IsKey (key : Text) : Prop :=
  ∃ body w w', IsBody body ∧ Spaces w ∧ Spaces w' ∧ key = '"' :: (body ++ '"' :: (w ++ ':' :: w'))

/-- Any JSON value. -/
inductive IsValue : Text → Prop
  | null : IsValue "null".toList
  | true : IsValue "true".toList
  | false : IsValue "false".toList
  | number {n : Number} {v : Text} : n.IsWritten v → IsValue v
  | string {body : Text} : IsBody body → IsValue ('"' :: (body ++ ['"']))
  | array {vs : List Text} {v : Text} : Enclosed .array vs v → (∀ v ∈ vs, IsValue v) → IsValue v
  | object {ms : List (Text × Text)} {v : Text} :
    Enclosed .object (ms.map fun (key, value) => key ++ value) v → (∀ m ∈ ms, IsKey m.1) →
    (∀ m ∈ ms, IsValue m.2) → IsValue v

/-- A member of an object: its name, how name and colon are written, and how the value is. -/
structure WrittenMember where
  name : Text
  key : Text
  value : Text
  isKey : ∃ body w w', Spells name body ∧ Spaces w ∧ Spaces w' ∧
    key = '"' :: (body ++ '"' :: (w ++ ':' :: w'))

namespace WrittenMember

def text (m : WrittenMember) : Text := m.key ++ m.value

/-- The values of the members with one name. -/
def valuesOf (name : Text) (ms : List WrittenMember) : List Text :=
  (ms.filter (·.name = name)).map (·.value)

end WrittenMember

/-- An object with its members. -/
def IsObject (ms : List WrittenMember) : Text → Prop := Enclosed .object (ms.map (·.text))

end Logmark.Json
