import Logmark.Proofs.Listing

/-!
Removals one after the other. A removal leaves nothing for a second one of the same tag, and it
leaves all statements of another tag as they are, so removals of two tags give the same text and the
same counts in either order. What makes tags independent is that a blank ends a tag in a statement:
no line is a statement of two tags, not even where one tag begins with the other.
-/
namespace Logmark.Removal

open Text

variable {tag tag' : Tag}

theorem text_ofText_ofText (tag tag' : Tag) (s : Text) :
    (ofText tag' (ofText tag s).text).text =
      removeLines (fun line => Statement.isLine tag line || Statement.isLine tag' line) s := by
  rw [text_ofText, text_ofText]
  exact removeLines_removeLines (lineTest_isLine tag') (lineTest_isLine tag) s

/-- A removal takes no statement of another tag from the lines that are listed. -/
theorem passing_text_ofText (h : tag ≠ tag') (s : Text) :
    passing (Statement.isLine tag') (ofText tag s).text = passing (Statement.isLine tag') s := by
  rw [text_ofText]
  apply passing_removeLines_of_disjoint (lineTest_isLine tag') (lineTest_isLine tag)
  intro line hline'
  exact Bool.eq_false_iff.2 fun hline => h (Statement.eq_of_isLine hline hline')

theorem countP_lines_text_ofText (h : tag ≠ tag') (s : Text) :
    (lines (ofText tag s).text).countP (Statement.isLine tag') =
      (lines s).countP (Statement.isLine tag') := by
  have htest := lineTest_isLine tag'
  rw [← length_passing htest, passing_text_ofText h, length_passing htest]

theorem removed_ofText_ofText (h : tag ≠ tag') (s : Text) :
    (ofText tag' (ofText tag s).text).removed = (ofText tag' s).removed := by
  rw [removed_ofText, removed_ofText, countP_lines_text_ofText h]

/-- A text in which no statement of the tag is listed is left as it is. -/
theorem ofText_of_passing_eq_nil {s : Text} (h : passing (Statement.isLine tag) s = []) :
    ofText tag s = ⟨s, false, 0⟩ := by
  have htest := lineTest_isLine tag
  have htext : (ofText tag s).text = s := by
    rw [text_ofText]
    exact (removeLines_eq_self_iff htest).2 h
  have hremoved : (ofText tag s).removed = 0 := by
    rw [removed_ofText, ← length_passing htest, h]
    rfl
  have hchanged : (ofText tag s).changed = false := by
    refine Bool.eq_false_iff.2 fun hchanged => ?_
    have := (changed_ofText_iff tag s).1 hchanged
    omega
  calc ofText tag s
      = ⟨(ofText tag s).text, (ofText tag s).changed, (ofText tag s).removed⟩ := rfl
    _ = ⟨s, false, 0⟩ := by rw [htext, hchanged, hremoved]

/-- What a removal leaves has no statement of the tag: none is listed, and a second removal finds
nothing and changes nothing. -/
theorem ofText_idempotent (tag : Tag) (s : Text) :
    let rest := (ofText tag s).text
    (∀ line ∈ lines rest, Statement.isLine tag line = false) ∧
      (Document.ofText rest).statementLines tag = [] ∧ ofText tag rest = ⟨rest, false, 0⟩ := by
  intro rest
  have htest := lineTest_isLine tag
  have hnone : passing (Statement.isLine tag) rest = [] := passing_removeLines_self htest s
  refine ⟨(passing_eq_nil_iff htest).1 hnone, ?_, ofText_of_passing_eq_nil hnone⟩
  rw [← List.map_eq_nil_iff, Document.texts_statementLines]
  exact hnone

/-- Tags do not interfere. A line is a statement of one tag at most; so a removal leaves the
statements of another tag, and what is written under one tag is no statement of another. -/
theorem tags_independent (tag tag' : Tag) :
    (∀ line, Statement.isLine tag line = true → Statement.isLine tag' line = true → tag = tag') ∧
      (tag ≠ tag' →
        (∀ s, ((Document.ofText (ofText tag s).text).statementLines tag').map Prod.snd =
          ((Document.ofText s).statementLines tag').map Prod.snd) ∧
        ∀ selected site symbol,
          Statement.isLine tag' (Entry.ofSelection tag selected site symbol).text = false) := by
  refine ⟨fun line => Statement.eq_of_isLine, fun h => ⟨?_, ?_⟩⟩
  · intro s
    rw [Document.texts_statementLines, Document.texts_statementLines]
    exact passing_text_ofText h s
  · intro selected site symbol
    exact Statement.isLine_render_of_ne _ h

/-- A tag that another one begins with, each with a statement, the shorter one's last. -/
theorem tags_independent_of_longer :
    let short : Tag := ⟨"DB".toList, by decide, by simp; decide, by decide⟩
    let long : Tag := ⟨"DBG".toList, by decide, by simp; decide, by decide⟩
    let line (tag : Tag) := (Entry.ofSelection tag "x".toList ⟨[], "a/b.js".toList, 0⟩ none).text
    let s := line long ++ "\r\n".toList ++ line short
    short ≠ long ∧ Statement.isLine long (line long) = true ∧
      Statement.isLine short (line long) = false ∧ Statement.isLine long (line short) = false ∧
      (ofText short s).text = line long ∧
      ((Document.ofText (ofText short s).text).statementLines long).map Prod.snd = [line long] := by
  intro short long line s
  have hne : short ≠ long := by decide
  have hlong : Statement.isLine long (line long) = true := by decide +kernel
  have hshort : Statement.isLine short (line long) = false :=
    Bool.eq_false_iff.2 fun hshort => hne ((tags_independent short long).1 _ hshort hlong)
  have htext : (ofText short s).text = line long := by decide +kernel
  have hlisted : ((Document.ofText s).statementLines long).map Prod.snd = [line long] := by
    decide +kernel
  obtain ⟨hkept, hother⟩ := (tags_independent short long).2 hne
  exact ⟨hne, hlong, hshort, hother _ _ _, htext, (hkept s).trans hlisted⟩

/-- Removals commute: the text that two of them leave does not depend on their order, and neither do
the counts that removals of different tags report. -/
theorem ofText_comm (tag tag' : Tag) (s : Text) :
    (ofText tag' (ofText tag s).text).text = (ofText tag (ofText tag' s).text).text ∧
      (tag ≠ tag' →
        (ofText tag' (ofText tag s).text).removed = (ofText tag' s).removed ∧
          (ofText tag (ofText tag' s).text).removed = (ofText tag s).removed) := by
  constructor
  · rw [text_ofText_ofText, text_ofText_ofText]
    congr 1
    funext line
    exact Bool.or_comm _ _
  · intro h
    exact ⟨removed_ofText_ofText h s, removed_ofText_ofText h.symm s⟩

/-- Removing the last statement makes the one before it the last, and its line break goes too. -/
theorem ofText_comm_unterminated :
    let debug : Tag := ⟨"DBG".toList, by decide, by simp; decide, by decide⟩
    let line (tag : Tag) := (Entry.ofSelection tag "x".toList ⟨[], "a/b.js".toList, 0⟩ none).text
    let s := "a\r\n".toList ++ line debug ++ ['\n'] ++ line Tag.standard
    Tag.standard ≠ debug ∧
      (ofText debug (ofText Tag.standard s).text).text = "a".toList ∧
      (ofText Tag.standard (ofText debug s).text).text = "a".toList ∧
      (ofText debug (ofText Tag.standard s).text).removed = 1 ∧
      (ofText Tag.standard (ofText debug s).text).removed = 1 := by
  intro debug line s
  have hne : Tag.standard ≠ debug := by decide
  have htext : (ofText debug (ofText Tag.standard s).text).text = "a".toList := by decide +kernel
  have hdebug : (ofText debug s).removed = 1 := by decide +kernel
  have hstandard : (ofText Tag.standard s).removed = 1 := by decide +kernel
  obtain ⟨hsame, hcounts⟩ := ofText_comm Tag.standard debug s
  obtain ⟨hdebug', hstandard'⟩ := hcounts hne
  exact ⟨hne, htext, hsame.symm.trans htext, hdebug'.trans hdebug, hstandard'.trans hstandard⟩

end Logmark.Removal
