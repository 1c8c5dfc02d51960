import Logmark.Text.Blank

/-!
Cutting a text at a separator. `cuts` lists every way to write a text as `before ++ sep ++ after`,
shortest `before` first; `splitOnce?` is the first of them. `pieces` are the runs between the
characters of a class.
-/
namespace Logmark.Text

/-- The texts before and after each place where `sep` stands in `s`, from left to right. -/
def cuts (sep s : Text) : List (Text × Text) := go [] s
where
  /-- The places in `s`, where the characters of `seen`, latest first, stand before `s`. -/
  go (seen : Text) : Text → List (Text × Text)
    | [] =>
      match sep.isPrefixOf? [] with
      | some after => [(seen.reverse, after)]
      | none => []
    | c :: s =>
      match sep.isPrefixOf? (c :: s) with
      | some after => (seen.reverse, after) :: go (c :: seen) s
      | none => go (c :: seen) s

/-- The texts before and after the first place where `sep` stands in `s`. -/
def splitOnce? (sep s : Text) : Option (Text × Text) := go [] s
where
  go (seen : Text) : Text → Option (Text × Text)
    | [] =>
      match sep.isPrefixOf? [] with
      | some after => some (seen.reverse, after)
      | none => none
    | c :: s =>
      match sep.isPrefixOf? (c :: s) with
      | some after => some (seen.reverse, after)
      | none => go (c :: seen) s

theorem splitOnce?_go_eq_head? (sep seen s : Text) :
    splitOnce?.go sep seen s = (cuts.go sep seen s).head? := by
  induction s generalizing seen with
  | nil => simp only [splitOnce?.go, cuts.go]; split <;> rfl
  | cons c s ih => simp only [splitOnce?.go, cuts.go]; split <;> simp [ih]

theorem splitOnce?_eq_head? (sep s : Text) : splitOnce? sep s = (cuts sep s).head? :=
  splitOnce?_go_eq_head? sep [] s

/-- The maximal runs between the characters of a class; there is one more of them than there are
such characters. -/
def pieces (isSep : Char → Bool) (s : Text) : List Text :=
  s.foldr (fun c rest => if isSep c then [] :: rest else rest.modifyHead (c :: ·)) [[]]

@[simp] theorem pieces_nil (isSep : Char → Bool) : pieces isSep [] = [[]] := rfl

theorem pieces_cons (isSep : Char → Bool) (c : Char) (s : Text) :
    pieces isSep (c :: s) =
      if isSep c then [] :: pieces isSep s else (pieces isSep s).modifyHead (c :: ·) := rfl

theorem length_pieces (isSep : Char → Bool) (s : Text) :
    (pieces isSep s).length = s.countP isSep + 1 := by
  induction s with
  | nil => rfl
  | cons c s ih => rw [pieces_cons]; by_cases h : isSep c <;> simp [h, ih]

end Logmark.Text
