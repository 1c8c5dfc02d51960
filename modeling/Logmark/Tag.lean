import Logmark.Text.Blank

/-!
Tags: the short identifiers that mark generated statements. A tag is not empty, holds no blank and
is at most ten characters long, so that the space after it in a statement always ends it.
-/
namespace Logmark

/-- The largest number of characters in a tag. -/
def Tag.maxLength : Nat := 10

structure Tag where
  name : Text
  ne_nil : name ≠ []
  not_blank : ∀ c ∈ name, Text.isBlank c = false
  length_le : name.length ≤ Tag.maxLength
  deriving DecidableEq

/-- Why a text is no tag. -/
inductive TagError where
  | empty
  | blankInside
  | tooLong (length : Nat)
  deriving DecidableEq, Repr

namespace TagError

def message : TagError → Text
  | empty => "Identifier cannot be empty".toList
  | blankInside => "Identifier cannot contain whitespace".toList
  | tooLong length =>
    "Identifier cannot be longer than ".toList ++ Nat.toDigits 10 Tag.maxLength ++
      " characters (got ".toList ++ Nat.toDigits 10 length ++ [')']

end TagError

namespace Tag

/-- The tag in use until another is chosen. -/
def standard : Tag where
  name := ['👾']
  ne_nil := List.cons_ne_nil _ _
  not_blank c hc := by
    rw [List.mem_singleton.1 hc]
    rfl
  length_le := by decide

instance : Inhabited Tag := ⟨standard⟩

/-- The tag that `s` spells, blanks around it set aside. -/
def ofText (s : Text) : Except TagError Tag :=
  let name := Text.trim s
  if ne_nil : name = [] then .error .empty
  else if blank : name.any Text.isBlank = true then .error .blankInside
  else if short : name.length ≤ maxLength then
    .ok ⟨name, ne_nil, by simpa using blank, short⟩
  else .error (.tooLong name.length)

end Tag
end Logmark
