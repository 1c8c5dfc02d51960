import Mathlib.Data.List.Basic
import Logmark.Text.Utf8
import Logmark.Text.Width

/-!
Cutting a text at a byte of its encoding. A byte offset is a cut if the bytes before it encode the
characters before a place in the text, and the part of the text that fits into so many bytes is then
the text before that place. With any other number of bytes it ends at the cut before them, so that
more bytes hold the same characters and perhaps more.
-/
namespace Logmark.Text

variable {s t before after : Text} {m n : Nat}

theorem encode_eq (s : Text) : encode s = s.utf8Encode := by
  rw [encode, String.toUTF8_eq_toByteArray, String.toByteArray_ofList]

@[simp] theorem encode_append (s t : Text) : encode (s ++ t) = encode s ++ encode t := by
  simp only [encode_eq, List.utf8Encode_append]

/-- The width of a text is the size of its encoding. -/
theorem size_encode (s : Text) : (encode s).size = width s := by
  induction s with
  | nil => simp [encode_eq]
  | cons c s ih =>
    rw [encode_eq] at ih
    rw [encode_eq, List.utf8Encode_cons, List.utf8Encode_singleton, ByteArray.size_append, ih,
      List.size_toByteArray, String.length_utf8EncodeChar, width_cons]

/-- Every character takes a byte. -/
theorem length_le_width (s : Text) : s.length ≤ width s := by
  induction s with
  | nil => exact Nat.le_refl 0
  | cons c s ih =>
    have hpos := c.utf8Size_pos
    rw [width_cons, List.length_cons]
    omega

theorem width_le_of_starts (h : s <+: t) : width s ≤ width t := by
  obtain ⟨rest, rfl⟩ := h
  rw [width_append]
  exact Nat.le_add_right _ _

/-- Byte `n` of `s` stands between the characters of `before` and those of `after`. -/
structure CutAt (s : Text) (n : Nat) (before after : Text) : Prop where
  text_eq : s = before ++ after
  width_eq : width before = n

theorem cutAt_take (s : Text) (i : Nat) : CutAt s (width (s.take i)) (s.take i) (s.drop i) :=
  ⟨(List.take_append_drop i s).symm, rfl⟩

theorem CutAt.le_width (h : CutAt s n before after) : n ≤ width s := by
  rw [h.text_eq, width_append, h.width_eq]
  exact Nat.le_add_right _ _

/-- The offsets with a cut are the valid ones of the string. -/
theorem isValid_iff :
    String.Pos.Raw.IsValid (String.ofList s) ⟨n⟩ ↔ ∃ before after, CutAt s n before after := by
  have hwidth : ∀ i, (String.ofList (s.take i)).utf8ByteSize = width (s.take i) := by
    intro i
    rw [← size_encode, encode_eq, ← String.toByteArray_ofList]
    rfl
  rw [String.Pos.Raw.isValid_ofList]
  constructor
  · rintro ⟨i, hi⟩
    exact ⟨s.take i, s.drop i, (List.take_append_drop i s).symm, ((hwidth i).symm.trans hi.symm)⟩
  · rintro ⟨before, after, rfl, rfl⟩
    exact ⟨before.length, by rw [hwidth, List.take_left]⟩

/-- What stands between two cuts is encoded by the bytes between them. -/
theorem encode_of_append_append (before inner after : Text) :
    encode inner =
      (encode (before ++ inner ++ after)).extract (width before) (width (before ++ inner)) := by
  rw [encode_append, ← size_encode (before ++ inner), ByteArray.extract_append_size_left,
    encode_append, ← size_encode before, ByteArray.size_append]
  exact (ByteArray.extract_append_eq_right rfl rfl).symm

theorem takeWidth_go (seen : Text) (n : Nat) (s : Text) :
    takeWidth.go seen n s = seen.reverse ++ takeWidth n s := by
  rw [takeWidth]
  induction s generalizing seen n with
  | nil => simp [takeWidth.go]
  | cons c s ih =>
    rw [takeWidth.go, takeWidth.go, ih, ih [c]]
    split <;> simp

theorem takeWidth_cons (n : Nat) (c : Char) (s : Text) :
    takeWidth n (c :: s) = if c.utf8Size ≤ n then c :: takeWidth (n - c.utf8Size) s else [] := by
  rw [takeWidth, takeWidth.go, takeWidth_go]
  rfl

theorem takeWidth_starts (n : Nat) (s : Text) : takeWidth n s <+: s := by
  induction s generalizing n with
  | nil => exact List.prefix_rfl
  | cons c s ih =>
    rw [takeWidth_cons]
    split
    · exact List.cons_prefix_cons.2 ⟨rfl, ih _⟩
    · exact List.nil_prefix

theorem width_takeWidth_le (n : Nat) (s : Text) : width (takeWidth n s) ≤ n := by
  induction s generalizing n with
  | nil => exact Nat.zero_le n
  | cons c s ih =>
    rw [takeWidth_cons]
    split
    · have := ih (n - c.utf8Size)
      rw [width_cons]
      omega
    · exact Nat.zero_le n

/-- More bytes hold the same characters and perhaps more. -/
theorem takeWidth_starts_takeWidth (h : m ≤ n) (s : Text) : takeWidth m s <+: takeWidth n s := by
  induction s generalizing m n with
  | nil => exact List.prefix_rfl
  | cons c s ih =>
    rw [takeWidth_cons, takeWidth_cons]
    by_cases hm : c.utf8Size ≤ m
    · rw [if_pos hm, if_pos (Nat.le_trans hm h)]
      exact List.cons_prefix_cons.2 ⟨rfl, ih (Nat.sub_le_sub_right h _)⟩
    · rw [if_neg hm]
      exact List.nil_prefix

/-- At a cut the bytes before it hold the text before it. -/
theorem CutAt.takeWidth_eq (h : CutAt s n before after) : takeWidth n s = before := by
  obtain ⟨rfl, rfl⟩ := h
  induction before with
  | nil =>
    cases after with
    | nil => rfl
    | cons c after =>
      have hpos : ¬ c.utf8Size ≤ 0 := Nat.not_le.2 c.utf8Size_pos
      exact (takeWidth_cons 0 c after).trans (if_neg hpos)
  | cons c before ih =>
    rw [List.cons_append, takeWidth_cons, width_cons, if_pos (Nat.le_add_right _ _),
      Nat.add_sub_cancel_left, ih]

/-- No two cuts have the same offset. -/
theorem CutAt.unique {before' after' : Text} (h : CutAt s n before after)
    (h' : CutAt s n before' after') : before = before' ∧ after = after' := by
  have hbefore : before = before' := h.takeWidth_eq.symm.trans h'.takeWidth_eq
  refine ⟨hbefore, (List.append_right_inj before).1 ?_⟩
  rw [← h.text_eq, hbefore, ← h'.text_eq]

end Logmark.Text
