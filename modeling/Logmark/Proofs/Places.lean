import Logmark.Document.Offset
import Logmark.Proofs.Segments

/-!
The places that positions stand for. On a line of the document a position stands behind the lines
before it and behind as many characters of the line as its column says; past the last line it stands
at the end. What a range covers lies between two such places.
-/
namespace Logmark

namespace Text

variable {s line rest : Text} {before : List Text}

/-- `line` is the line of `s` that comes after the lines `before`, and `rest` is the text behind it,
its line feed included. -/
structure LineAt (s : Text) (before : List Text) (line rest : Text) : Prop where
  text_eq : s = terminate before ++ (line ++ rest)
  before_free : FeedFree before
  line_free : '\n' ∉ line
  rest_start : rest = [] ∨ ∃ after, rest = '\n' :: after

/-- Every line number of a text has its line. -/
theorem exists_lineAt {l : Nat} (h : l < (lines s).length) :
    ∃ before line rest, LineAt s before line rest ∧ before.length = l := by
  obtain ⟨ls, t, hls, ht, rfl⟩ := exists_eq_terminate_append s
  rw [lines_terminate_append hls ht, List.length_append, List.length_singleton] at h
  cases Nat.lt_or_eq_of_le (Nat.le_of_lt_succ h) with
  | inl hl =>
    have hsplit : ls = ls.take l ++ ls[l] :: ls.drop (l + 1) := by simp
    have hall : FeedFree (ls.take l ++ ls[l] :: ls.drop (l + 1)) := hsplit ▸ hls
    obtain ⟨hbefore, hrest⟩ := List.forall_mem_append.1 hall
    refine ⟨ls.take l, ls[l], '\n' :: (terminate (ls.drop (l + 1)) ++ t), ⟨?_, hbefore,
      hrest ls[l] List.mem_cons_self, .inr ⟨_, rfl⟩⟩, List.length_take_of_le (Nat.le_of_lt hl)⟩
    conv_lhs => rw [hsplit, terminate_append, terminate_cons]
    simp only [List.append_assoc, List.cons_append]
  | inr hl => exact ⟨ls, t, [], ⟨by simp, hls, ht, .inl rfl⟩, hl.symm⟩

/-- Every start of a text ends on one of its lines. -/
theorem exists_lineAt_of_starts {u : Text} (h : u <+: s) :
    ∃ before line rest t, LineAt s before line rest ∧ t <+: line ∧ u = terminate before ++ t := by
  obtain ⟨v, rfl⟩ := h
  obtain ⟨ls, t, hls, ht, rfl⟩ := exists_eq_terminate_append u
  obtain ⟨ms, w, hms, hw, rfl⟩ := exists_eq_terminate_append v
  cases ms with
  | nil =>
    refine ⟨ls, t ++ w, [], t, ⟨?_, hls, ?_, .inl rfl⟩, List.prefix_append t w, rfl⟩
    · simp
    · simp [ht, hw]
  | cons m ms =>
    obtain ⟨hm, -⟩ := hms.of_cons
    refine ⟨ls, t ++ m, '\n' :: (terminate ms ++ w), t, ⟨?_, hls, ?_, .inr ⟨_, rfl⟩⟩,
      List.prefix_append t m, rfl⟩
    · simp
    · simp [ht, hm]

theorem LineAt.lines_eq (h : LineAt s before line rest) :
    ∃ after, lines s = before ++ line :: after := by
  have hsplit : ∀ t : Text, lines (terminate before ++ t) = before ++ lines t := by
    intro t
    obtain ⟨ms, u, hms, hu, rfl⟩ := exists_eq_terminate_append t
    rw [← List.append_assoc, ← terminate_append,
      lines_terminate_append (h.before_free.append hms) hu, lines_terminate_append hms hu,
      List.append_assoc]
  rw [h.text_eq, hsplit]
  obtain hrest | ⟨after, hrest⟩ := h.rest_start
  · exact ⟨[], by rw [hrest, List.append_nil, lines_of_not_mem h.line_free]⟩
  · exact ⟨lines after, by rw [hrest, lines_line_append h.line_free]⟩

end Text

namespace Document

open Text

variable {d : Document} {p q : Position} {before : List Text} {line rest : Text}

/-- The index of a position on a line, from the lines of the document. -/
theorem indexAt_of_getElem? (h : (lines d.text)[p.line]? = some line) :
    d.indexAt p =
      (terminate ((lines d.text).take p.line)).length + min p.column (dropReturn line).length := by
  obtain ⟨hlt, -⟩ := List.getElem?_eq_some_iff.1 h
  have hcut : cutAtLine? p.line d.text = some (terminate ((lines d.text).take p.line),
      ['\n'].intercalate ((lines d.text).drop p.line)) := if_pos hlt
  rw [indexAt, hcut, line?, h]
  rfl

theorem line?_eq_none {l : Nat} (h : d.lineCount ≤ l) : d.line? l = none := by
  rw [line?, List.getElem?_eq_none h]
  rfl

theorem lt_lineCount_of_line? {l : Nat} (h : d.line? l = some line) : l < d.lineCount := by
  by_contra hl
  rw [line?_eq_none (Nat.not_lt.1 hl)] at h
  contradiction

theorem line?_of_lineAt (h : LineAt d.text before line rest) (hp : p.line = before.length) :
    d.line? p.line = some (dropReturn line) := by
  obtain ⟨after, hlines⟩ := h.lines_eq
  rw [line?, hp, hlines, List.getElem?_append_right (Nat.le_refl _), Nat.sub_self]
  rfl

theorem indexAt_of_lineAt (h : LineAt d.text before line rest) (hp : p.line = before.length) :
    d.indexAt p = (terminate before).length + min p.column (dropReturn line).length := by
  obtain ⟨after, hlines⟩ := h.lines_eq
  have hline : (lines d.text)[p.line]? = some line := by simp [hp, hlines]
  rw [indexAt_of_getElem? hline, hp, hlines, List.take_left]

/-- A column past the end of the line stands for its end. -/
theorem indexAt_clamp (h : LineAt d.text before line rest) (hp : p.line = before.length) :
    d.indexAt ⟨p.line, min p.column (dropReturn line).length⟩ = d.indexAt p := by
  have hclamped := indexAt_of_lineAt (p := ⟨p.line, min p.column (dropReturn line).length⟩) h hp
  rw [hclamped, indexAt_of_lineAt h hp, Nat.min_assoc, Nat.min_self]

/-- The text before a position on a line. -/
theorem take_indexAt (h : LineAt d.text before line rest) (hp : p.line = before.length) :
    d.text.take (d.indexAt p) = terminate before ++ (dropReturn line).take p.column := by
  obtain ⟨breaks, hbreaks⟩ := dropReturn_starts line
  have htext : d.text = terminate before ++ (dropReturn line ++ (breaks ++ rest)) := by
    rw [← List.append_assoc (dropReturn line), hbreaks]
    exact h.text_eq
  rw [indexAt_of_lineAt h hp, htext, List.take_length_add_append,
    List.take_append_of_le_length (Nat.min_le_right _ _)]
  simp [List.take_eq_take_iff]

/-- The text behind a position on a line. -/
theorem drop_indexAt (h : LineAt d.text before line rest) (hp : p.line = before.length) :
    ∃ breaks, d.text.drop (d.indexAt p) = (dropReturn line).drop p.column ++ (breaks ++ rest) ∧
      line = dropReturn line ++ breaks := by
  obtain ⟨breaks, hbreaks⟩ := dropReturn_starts line
  refine ⟨breaks, (List.append_right_inj (d.text.take (d.indexAt p))).1 ?_, hbreaks.symm⟩
  rw [List.take_append_drop, take_indexAt h hp, List.append_assoc, ← List.append_assoc (List.take ..),
    List.take_append_drop, ← List.append_assoc (dropReturn line), hbreaks]
  exact h.text_eq

/-- Past the last line all text comes before a position. -/
theorem indexAt_of_lineCount_le (h : d.lineCount ≤ p.line) : d.indexAt p = d.text.length := by
  have hnone : cutAtLine? p.line d.text = none := if_neg (Nat.not_lt.2 h)
  rw [indexAt, hnone]

theorem indexAt_le_length (d : Document) (p : Position) : d.indexAt p ≤ d.text.length := by
  cases Nat.lt_or_ge p.line d.lineCount with
  | inl hp =>
    obtain ⟨before, line, rest, hline, hl⟩ := exists_lineAt hp
    have hlength := (dropReturn_starts line).length_le
    have htext := congrArg List.length hline.text_eq
    rw [indexAt_of_lineAt hline hl.symm]
    simp only [List.length_append] at htext
    omega
  | inr hp => exact Nat.le_of_eq (indexAt_of_lineCount_le hp)

/-- A later position stands for a later place, or for the same. -/
theorem indexAt_le_indexAt (h : p ≤ q) : d.indexAt p ≤ d.indexAt q := by
  cases Nat.lt_or_ge q.line d.lineCount with
  | inr hq => exact indexAt_of_lineCount_le hq ▸ indexAt_le_length d p
  | inl hq =>
    obtain ⟨later, hlater⟩ : ∃ later, (lines d.text)[q.line]? = some later :=
      ⟨_, List.getElem?_eq_getElem hq⟩
    cases Position.le_def.1 h with
    | inl hline =>
      -- The line of the earlier position is one of the lines before the later one.
      obtain ⟨earlier, hearlier⟩ : ∃ earlier, (lines d.text)[p.line]? = some earlier :=
        ⟨_, List.getElem?_eq_getElem (Nat.lt_trans hline hq)⟩
      obtain ⟨between, hbetween⟩ := List.take_prefix_take_left (l := lines d.text) hline
      have hlength := (dropReturn_starts earlier).length_le
      rw [indexAt_of_getElem? hearlier, indexAt_of_getElem? hlater, ← hbetween, List.take_add_one,
        hearlier]
      simp only [Option.toList_some, terminate_append, terminate_cons, List.length_append,
        List.length_cons]
      omega
    | inr hcolumn =>
      have hsame : (lines d.text)[p.line]? = some later := by rw [hcolumn.1, hlater]
      rw [indexAt_of_getElem? hlater, indexAt_of_getElem? hsame, hcolumn.1]
      omega

/-- The order of the ends makes no difference. -/
theorem textIn_comm (d : Document) (p q : Position) : d.textIn ⟨p, q⟩ = d.textIn ⟨q, p⟩ := by
  rw [textIn, textIn, Nat.max_comm, Nat.min_comm]

/-- The text before the first end of a range and what the range covers are the text before the other
end. -/
theorem take_append_textIn (h : p ≤ q) :
    d.text.take (d.indexAt p) ++ d.textIn ⟨p, q⟩ = d.text.take (d.indexAt q) := by
  have hindex : d.indexAt p ≤ d.indexAt q := indexAt_le_indexAt h
  rw [textIn, Nat.max_eq_right hindex, Nat.min_eq_left hindex]
  conv_rhs => rw [← List.take_append_drop (d.indexAt p) (d.text.take (d.indexAt q)),
    List.take_take, Nat.min_eq_left hindex]

end Document
end Logmark
