import Logmark.Text.Blank

/-!
Texts measured in bytes of UTF-8. Offsets into a text count these bytes.
-/
namespace Logmark.Text

/-- The number of bytes of `s` in UTF-8. -/
def width (s : Text) : Nat := s.foldr (fun c n => c.utf8Size + n) 0

@[simp] theorem width_nil : width [] = 0 := rfl

@[simp] theorem width_cons (c : Char) (s : Text) : width (c :: s) = c.utf8Size + width s := rfl

@[simp] theorem width_append (s t : Text) : width (s ++ t) = width s + width t := by
  induction s with
  | nil => simp
  | cons c s ih => simp [ih, Nat.add_assoc]

/-- The longest part of `s`, from its start, that takes at most `n` bytes. -/
def takeWidth (n : Nat) (s : Text) : Text := go [] n s
where
  go (seen : Text) (n : Nat) : Text → Text
    | [] => seen.reverse
    | c :: s => if c.utf8Size ≤ n then go (c :: seen) (n - c.utf8Size) s else seen.reverse

end Logmark.Text
