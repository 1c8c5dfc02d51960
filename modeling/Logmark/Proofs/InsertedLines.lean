import Mathlib.Data.List.InsertIdx
import Logmark.Proofs.Inserting
import Logmark.Proofs.Places

/-!
Inserting a line is insertion into the list of lines. The inserted line becomes the line with the
number it was given, or the last one before an empty last line, or a new last line. All other lines
stay as they are and in order; one thing only can happen to them, and only to a last line that is
not empty: when it is terminated, a carriage return at its end can come to stand before another. In
the text it is one block that is put in, the line with a line break on one side, so that insertions
at different lines commute.
-/
namespace Logmark

open Text

variable {t content line : Text} {ls : List Text} {d : Document} {l i : Nat}

namespace Text

variable {α : Type} {xs : List α}

/-- An element put in where a list is cut; past the end of the list it is put at the end. -/
theorem take_append_cons_drop (xs : List α) (i : Nat) (x : α) :
    xs.take i ++ x :: xs.drop i = xs.insertIdx (min i xs.length) x := by
  induction xs generalizing i with
  | nil => simp
  | cons y xs ih =>
    cases i with
    | zero => simp
    | succ i => simp [Nat.succ_min_succ, ih]

theorem insertIdx_append (h : i ≤ xs.length) (x : α) (ys : List α) :
    (xs ++ ys).insertIdx i x = xs.insertIdx i x ++ ys := by
  induction xs generalizing i with
  | nil => simp_all
  | cons y xs ih =>
    cases i with
    | zero => simp
    | succ i => simp [ih (Nat.le_of_succ_le_succ h)]

theorem FeedFree.insertIdx (h : FeedFree ls) (hline : '\n' ∉ line) (i : Nat) :
    FeedFree (ls.insertIdx i line) :=
  fun _ hmem => (List.eq_or_mem_of_mem_insertIdx hmem).elim (· ▸ hline) (h _)

theorem withoutReturns_append_lead (b : LineBreak) (line : Text) :
    withoutReturns (line ++ b.lead) = withoutReturns line :=
  dropEndWhile_append_of_all (by cases b <;> simp [LineBreak.lead])

end Text

namespace Document

/-- The line that a line inserted before line `l` becomes. -/
def insertedLine (d : Document) (l : Nat) : Nat :=
  if l < d.lineCount then l
  else if d.text = [] ∨ d.text.getLast? = some '\n' then d.lineCount - 1
  else d.lineCount

/-- `d'` is `d` with `content` and a line break put in between `before` and what comes after it. -/
def PutsIn (content before : Text) (d d' : Document) : Prop :=
  ∃ after, d.text = before ++ after ∧
    (d'.text = before ++ (content ++ d.lineBreak.text) ++ after ∨
      d'.text = before ++ (d.lineBreak.text ++ content) ++ after)

/-- The lines of `d'` are those of `d` with one more in place `i`, as far as `view` shows it. -/
structure ShiftsLines (view : Text → Text) (i : Nat) (d d' : Document) : Prop where
  before : ∀ k < i, (d'.line? k).map view = (d.line? k).map view
  behind : ∀ k, i ≤ k → (d'.line? (k + 1)).map view = (d.line? k).map view

theorem insertedLine_eq (hd : d.text = terminate ls ++ t) (h : FeedFree ls) (ht : '\n' ∉ t)
    (l : Nat) :
    d.insertedLine l = if l ≤ ls.length ∨ t = [] then min l ls.length else ls.length + 1 := by
  have hterminated : (d.text = [] ∨ d.text.getLast? = some '\n') ↔ t = [] := hd ▸ terminated_iff ht
  rw [insertedLine, lineCount_eq hd h ht, if_congr hterminated rfl rfl]
  by_cases hl : l ≤ ls.length
  · rw [if_pos (Nat.lt_succ_of_le hl), if_pos (.inl hl), Nat.min_eq_left hl]
  · have hle : ls.length ≤ l := Nat.le_of_not_le hl
    simp only [Nat.lt_succ_iff, hl, if_false, false_or, Nat.min_eq_right hle,
      Nat.add_sub_cancel]

/-- The lines with a line inserted, where what comes before a line feed may have become the end of
the last line or of the inserted one. -/
theorem exists_lines_insertLine (d : Document) (hcontent : '\n' ∉ content) (l : Nat) :
    ∃ ls t x y, d.text = terminate ls ++ t ∧ lines d.text = ls ++ [t] ∧
      (x = [] ∨ x = d.lineBreak.lead) ∧ (y = [] ∨ y = d.lineBreak.lead) ∧
      d.insertedLine l ≤ ls.length + 1 ∧
      lines (d.insertLine l content).text =
        (ls ++ [t ++ x]).insertIdx (d.insertedLine l) (content ++ y) := by
  obtain ⟨ls, t, hls, ht, hd⟩ := exists_eq_terminate_append d.text
  have hlines : lines d.text = ls ++ [t] := hd ▸ lines_terminate_append hls ht
  have hinsert := lines_insertLine hd hls ht hcontent l
  rw [insertedLine_eq hd hls ht]
  by_cases hl : l ≤ ls.length ∨ t = []
  · refine ⟨ls, t, [], d.lineBreak.lead, hd, hlines, .inl rfl, .inr rfl, ?_, ?_⟩
    · rw [if_pos hl]
      omega
    · rw [if_pos hl] at hinsert ⊢
      rw [hinsert, take_append_cons_drop, List.append_nil,
        insertIdx_append (Nat.min_le_right l ls.length)]
  · refine ⟨ls, t, d.lineBreak.lead, [], hd, hlines, .inr rfl, .inl rfl, ?_, ?_⟩
    · rw [if_neg hl]
    · rw [if_neg hl] at hinsert ⊢
      have hlength : (ls ++ [t ++ d.lineBreak.lead]).length = ls.length + 1 := by simp
      rw [hinsert, List.append_nil, ← hlength, List.insertIdx_length_self]

theorem lineCount_insertLine (d : Document) (hcontent : '\n' ∉ content) (l : Nat) :
    (d.insertLine l content).lineCount = d.lineCount + 1 := by
  obtain ⟨ls, t, x, y, -, hlines, -, -, hle, hinsert⟩ := exists_lines_insertLine d hcontent l
  rw [lineCount, lineCount, hlines, hinsert, List.length_insertIdx_of_le_length (by simpa using hle)]
  simp

/-- With a carriage return or nothing after it a line is shown as it is, unless it ends with a
carriage return of its own. -/
theorem dropReturn_append_of_lead {b : LineBreak} {x : Text} (hx : x = [] ∨ x = b.lead)
    (h : line.getLast? ≠ some '\r') : dropReturn (line ++ x) = line := by
  have hline : dropReturn line = line := dropReturn_eq_self_iff.2 h
  obtain rfl | rfl := hx
  · rw [List.append_nil, hline]
  · rw [dropReturn_append_lead, hline, ite_self]

/-- The inserted line is where it belongs. -/
theorem line?_insertedLine (d : Document) (hfeed : '\n' ∉ content) (hreturn : '\r' ∉ content)
    (l : Nat) : (d.insertLine l content).line? (d.insertedLine l) = some content := by
  obtain ⟨ls, t, x, y, -, -, -, hy, hle, hinsert⟩ := exists_lines_insertLine d hfeed l
  rw [line?, hinsert, List.getElem?_insertIdx_self, if_pos (by simpa using hle), Option.map_some,
    dropReturn_append_of_lead hy (getLast?_ne_of_not_mem hreturn)]

/-- The other lines are where they belong, for a view that does not see what may have become the end
of the last line. -/
theorem shiftsLines_insertLine {view : Text → Text} (hcontent : '\n' ∉ content) (l : Nat)
    (hview : ∀ ls t x, d.text = terminate ls ++ t → x = [] ∨ x = d.lineBreak.lead →
      view (dropReturn (t ++ x)) = view (dropReturn t)) :
    ShiftsLines view (d.insertedLine l) d (d.insertLine l content) := by
  obtain ⟨ls, t, x, y, hd, hlines, hx, -, -, hinsert⟩ := exists_lines_insertLine d hcontent l
  have hsame : ∀ k : Nat, ((ls ++ [t ++ x])[k]?.map dropReturn).map view =
      ((ls ++ [t])[k]?.map dropReturn).map view := by
    intro k
    have hmap : ((ls ++ [t ++ x]).map dropReturn).map view =
        ((ls ++ [t]).map dropReturn).map view := by
      simp [hview ls t x hd hx]
    simpa only [List.getElem?_map] using congrArg (·[k]?) hmap
  constructor
  · intro k hk
    rw [line?, line?, hinsert, hlines, List.getElem?_insertIdx_of_lt hk, hsame]
  · intro k hk
    rw [line?, line?, hinsert, hlines, List.getElem?_insertIdx_of_gt (Nat.lt_add_one_of_le hk),
      Nat.add_sub_cancel, hsame]

theorem shiftsLines_withoutReturns (d : Document) (hcontent : '\n' ∉ content) (l : Nat) :
    ShiftsLines withoutReturns (d.insertedLine l) d (d.insertLine l content) := by
  refine shiftsLines_insertLine hcontent l fun _ t x _ hx => ?_
  rw [withoutReturns_dropReturn, withoutReturns_dropReturn]
  obtain rfl | rfl := hx
  · rw [List.append_nil]
  · exact withoutReturns_append_lead _ _

theorem shiftsLines_id (hd : d.text.getLast? ≠ some '\r') (hcontent : '\n' ∉ content) (l : Nat) :
    ShiftsLines id (d.insertedLine l) d (d.insertLine l content) := by
  refine shiftsLines_insertLine hcontent l fun ls t x htext hx => ?_
  have ht : t.getLast? ≠ some '\r' := by
    intro hlast
    rw [htext, List.getLast?_append, hlast] at hd
    exact hd rfl
  rw [id, id, dropReturn_append_of_lead hx ht, dropReturn_eq_self_iff.2 ht]

/-- A line is put into the text before the start of a line, or at the end. -/
theorem putsIn_insertLine (d : Document) (l : Nat) (content : Text) :
    PutsIn content (d.text.take (d.indexAt ⟨l, 0⟩)) d (d.insertLine l content) := by
  obtain ⟨ls, t, hls, ht, hd⟩ := exists_eq_terminate_append d.text
  have hinsert := text_insertLine hd hls ht l content
  refine ⟨d.text.drop (d.indexAt ⟨l, 0⟩), (List.take_append_drop _ _).symm, ?_⟩
  by_cases hl : l ≤ ls.length
  · have hline : ∃ line, (lines d.text)[l]? = some line :=
      ⟨_, List.getElem?_eq_getElem (Nat.lt_of_lt_of_eq (Nat.lt_succ_of_le hl)
        (lineCount_eq hd hls ht).symm)⟩
    obtain ⟨line, hline⟩ := hline
    have hindex : d.indexAt ⟨l, 0⟩ = (terminate (ls.take l)).length := by
      rw [indexAt_of_getElem? hline, Nat.zero_min, hd, lines_terminate_append hls ht,
        List.take_append_of_le_length hl]
      rfl
    have htext : d.text = terminate (ls.take l) ++ (terminate (ls.drop l) ++ t) := by
      rw [← List.append_assoc, ← terminate_append, List.take_append_drop, hd]
    rw [hinsert, if_pos (.inl hl), hindex, htext, List.take_left, List.drop_left]
    exact .inl (by simp [LineBreak.text_eq])
  · have hpast : d.lineCount ≤ l := by
      rw [lineCount_eq hd hls ht]
      omega
    have hle : ls.length ≤ l := Nat.le_of_not_le hl
    rw [hinsert, indexAt_of_lineCount_le hpast, List.take_length, List.drop_length, hd]
    by_cases hnil : t = []
    · rw [if_pos (.inr hnil), List.take_of_length_le hle, List.drop_of_length_le hle]
      exact .inl (by simp [hnil, LineBreak.text_eq])
    · rw [if_neg (fun h => h.elim hl hnil)]
      exact .inr (by simp [LineBreak.text_eq])

/-- A line inserted before line `l` becomes line `insertedLine l` of a document with one line more,
and the other lines stay in order. They stay the same up to carriage returns at their ends, and
quite the same in a text that does not end with one. What is put into the text is one block, made of
the line and a line break. -/
theorem insertLine_into_lines (d : Document) (l : Nat) (content : Text) (hfeed : '\n' ∉ content)
    (hreturn : '\r' ∉ content) :
    let d' := d.insertLine l content
    let i := d.insertedLine l
    d'.lineCount = d.lineCount + 1 ∧ d'.line? i = some content ∧
      ShiftsLines withoutReturns i d d' ∧
      (d.text.getLast? ≠ some '\r' → ShiftsLines id i d d') ∧
      ∃ before, PutsIn content before d d' := by
  intro d' i
  refine ⟨lineCount_insertLine d hfeed l, line?_insertedLine d hfeed hreturn l, ?_, ?_, ?_⟩
  · exact shiftsLines_withoutReturns d hfeed l
  · exact fun hlast => shiftsLines_id hlast hfeed l
  · exact ⟨_, putsIn_insertLine d l content⟩

/-- After an unterminated last line that ends with a carriage return, which stays with it. -/
theorem insertLine_into_lines_pastEnd :
    let d := ofText "x\r\na\r".toList
    let d' := d.insertLine 9 "y".toList
    '\n' ∉ "y".toList ∧ '\r' ∉ "y".toList ∧ d'.lineCount = 3 ∧ d'.line? 2 = some "y".toList ∧
      (d'.line? 1).map withoutReturns = some "a".toList ∧ d'.line? 1 ≠ d.line? 1 := by
  intro d d'
  have hfeed : '\n' ∉ "y".toList := by decide
  have hreturn : '\r' ∉ "y".toList := by decide
  obtain ⟨hcount, hline, hshifts, -, -⟩ := insertLine_into_lines d 9 "y".toList hfeed hreturn
  refine ⟨hfeed, hreturn, hcount, hline, ?_, by decide⟩
  exact hshifts.before 1 (by decide)

theorem lineBreak_insertLine (d : Document) (l : Nat) (content : Text) :
    (d.insertLine l content).lineBreak = d.lineBreak := by
  rw [insertLine]
  unfold appendLine
  split
  · split
    · split <;> rfl
    · rfl
  · split <;> rfl

theorem eq_of_text_eq {d d' : Document} (htext : d.text = d'.text)
    (hbreak : d.lineBreak = d'.lineBreak) : d = d' := by
  cases d
  cases d'
  simp_all

/-- A line inserted before a line of the document, or at a terminated end, is put in between the
terminated lines. -/
theorem text_insertLine_within (hd : d.text = terminate ls ++ t) (h : FeedFree ls) (ht : '\n' ∉ t)
    (hl : l ≤ ls.length ∨ t = []) (hi : min l ls.length = i) (content : Text) :
    (d.insertLine l content).text =
      terminate (ls.insertIdx i (content ++ d.lineBreak.lead)) ++ t := by
  rw [text_insertLine hd h ht, if_pos hl, take_append_cons_drop, hi]

/-- Insertions at different lines can be made in either order, where the later line moves by one if
the earlier one is inserted first. -/
theorem insertLine_comm (d : Document) {l₁ l₂ : Nat} {first second : Text} (hle : l₁ ≤ l₂)
    (hline : l₁ < d.lineCount) (hfirst : '\n' ∉ first) (hsecond : '\n' ∉ second) :
    (d.insertLine l₂ second).insertLine l₁ first =
      (d.insertLine l₁ first).insertLine (l₂ + 1) second := by
  obtain ⟨ls, t, hls, ht, hd⟩ := exists_eq_terminate_append d.text
  rw [lineCount_eq hd hls ht] at hline
  have hl₁ : l₁ ≤ ls.length := Nat.le_of_lt_succ hline
  let x := first ++ d.lineBreak.lead
  let y := second ++ d.lineBreak.lead
  have hx : '\n' ∉ x := d.lineBreak.not_mem_append_lead hfirst
  have hy : '\n' ∉ y := d.lineBreak.not_mem_append_lead hsecond
  -- The earlier line is put in between the terminated lines, so the end of the text stays.
  have hd₁ : (d.insertLine l₁ first).text = terminate (ls.insertIdx l₁ x) ++ t :=
    text_insertLine_within hd hls ht (.inl hl₁) (Nat.min_eq_left hl₁) first
  have hls₁ : FeedFree (ls.insertIdx l₁ x) := hls.insertIdx hx l₁
  have hlength₁ : (ls.insertIdx l₁ x).length = ls.length + 1 :=
    List.length_insertIdx_of_le_length hl₁ x
  refine eq_of_text_eq ?_ (by simp only [lineBreak_insertLine])
  by_cases hl₂ : l₂ ≤ ls.length ∨ t = []
  · obtain ⟨i, hi⟩ : ∃ i, min l₂ ls.length = i := ⟨_, rfl⟩
    have hlength₂ : (ls.insertIdx i y).length = ls.length + 1 :=
      List.length_insertIdx_of_le_length (by omega) y
    have hd₂ : (d.insertLine l₂ second).text = terminate (ls.insertIdx i y) ++ t :=
      text_insertLine_within hd hls ht hl₂ hi second
    have hi₁ : min l₁ (ls.insertIdx i y).length = l₁ := by omega
    have hi₂ : min (l₂ + 1) (ls.insertIdx l₁ x).length = i + 1 := by omega
    calc ((d.insertLine l₂ second).insertLine l₁ first).text
        = terminate ((ls.insertIdx i y).insertIdx l₁ x) ++ t := by
          rw [text_insertLine_within hd₂ (hls.insertIdx hy i) ht (.inl (by omega)) hi₁,
            lineBreak_insertLine]
      _ = terminate ((ls.insertIdx l₁ x).insertIdx (i + 1) y) ++ t := by
          rw [List.insertIdx_comm x y (by omega) (by omega)]
      _ = ((d.insertLine l₁ first).insertLine (l₂ + 1) second).text := by
          rw [text_insertLine_within hd₁ hls₁ ht (hl₂.imp_left (by omega)) hi₂,
            lineBreak_insertLine]
  · have hls₂ : FeedFree (ls ++ [t ++ d.lineBreak.lead]) :=
      hls.append (feedFree_singleton (d.lineBreak.not_mem_append_lead ht))
    have hd₂ : (d.insertLine l₂ second).text =
        terminate (ls ++ [t ++ d.lineBreak.lead]) ++ second := by
      rw [text_insertLine hd hls ht, if_neg hl₂]
    have hl₁' : l₁ ≤ (ls ++ [t ++ d.lineBreak.lead]).length := by simp; omega
    have hpast : ¬ (l₂ + 1 ≤ (ls.insertIdx l₁ x).length ∨ t = []) := by
      rw [hlength₁]
      exact fun h => hl₂ (h.imp_left Nat.le_of_succ_le_succ)
    calc ((d.insertLine l₂ second).insertLine l₁ first).text
        = terminate ((ls ++ [t ++ d.lineBreak.lead]).insertIdx l₁ x) ++ second := by
          rw [text_insertLine_within hd₂ hls₂ hsecond (.inl hl₁') (Nat.min_eq_left hl₁'),
            lineBreak_insertLine]
      _ = terminate (ls.insertIdx l₁ x ++ [t ++ d.lineBreak.lead]) ++ second := by
          rw [insertIdx_append hl₁]
      _ = ((d.insertLine l₁ first).insertLine (l₂ + 1) second).text := by
          rw [text_insertLine hd₁ hls₁ ht, if_neg hpast, lineBreak_insertLine]

/-- Two lines for an unterminated text, one of them past its end. -/
theorem insertLine_comm_pastEnd :
    let d := ofText "a\r\nb".toList
    1 ≤ 7 ∧ 1 < d.lineCount ∧ '\n' ∉ "x".toList ∧ '\n' ∉ "y".toList ∧
      ((d.insertLine 1 "x".toList).insertLine 8 "y".toList).text =
        "a\r\nx\r\nb\r\ny".toList := by
  intro d
  have hline : 1 < d.lineCount := by decide
  have hfirst : '\n' ∉ "x".toList := by decide
  have hsecond : '\n' ∉ "y".toList := by decide
  refine ⟨by decide, hline, hfirst, hsecond, ?_⟩
  rw [← insertLine_comm d (by decide : 1 ≤ 7) hline hfirst hsecond]
  decide

end Document
end Logmark
