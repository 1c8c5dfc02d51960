import Logmark.Proofs.InnermostSymbol
import Logmark.Proofs.InsertedLines
import Logmark.Proofs.Planning
import Logmark.Proofs.Previews

/-!
Where a statement stands. It is planned for a line after the cursor, since a symbol around the
cursor ends on the cursor's line or later. So what comes before that line, and the selected range
with it, stays where it is. On a line that the document does not reach the statement comes as close
to it as the end of the document allows, but it is the planned line that is announced.
-/
namespace Logmark

open Text

namespace Document

variable {d : Document} {target : Target} {context : InsertionContext} {selected content : Text}
  {entry : Entry} {p : Position} {l k : Nat}

/-- A statement is planned for a line after the cursor's, as far as lines can be counted. -/
theorem cursor_lt_insertionLine (hcount : d.lineCount ≤ maxCount)
    (h : d.planInsertion target context = .ok (selected, entry)) :
    target.cursor.line + 1 ≤ entry.insertionLine := by
  obtain ⟨hline, -, -, -, rfl⟩ := planInsertion_eq_ok_iff.1 h
  have hcursor : target.cursor.line < d.lineCount := checkLine_eq_ok_iff.1 hline
  have hend : target.cursor.line ≤ ((Outline.locate target.cursor context.outline).map
      (·.range.stop.line)).getD target.cursor.line := by
    cases hsymbol : Outline.locate target.cursor context.outline with
    | none => exact Nat.le_refl _
    | some s =>
      have hstop : target.cursor ≤ s.range.stop := (Outline.mem_range_of_locate hsymbol).2
      exact (Position.le_def.1 hstop).elim Nat.le_of_lt fun h => Nat.le_of_eq h.1
  exact Nat.le_min.2 ⟨Nat.succ_le_succ hend, Nat.le_trans hcursor hcount⟩

/-- The text before a position stays if the line is inserted at a later one. -/
theorem take_insertLine (hp : p ≤ ⟨l, 0⟩) (content : Text) :
    (d.insertLine l content).text.take (d.indexAt p) = d.text.take (d.indexAt p) := by
  have hindex : d.indexAt p ≤ (d.text.take (d.indexAt ⟨l, 0⟩)).length := by
    rw [List.length_take_of_le (indexAt_le_length d _)]
    exact indexAt_le_indexAt hp
  obtain ⟨after, htext, hinserted | hinserted⟩ := putsIn_insertLine d l content
  all_goals
    rw [hinserted, List.append_assoc, List.take_append_of_le_length hindex, List.take_take,
      Nat.min_eq_left (indexAt_le_indexAt hp)]

/-- A statement comes after the cursor's line, and everything up to the end of the line before it
stays. So a selected range keeps its text and its place, and the statement comes after it. -/
theorem insertEntry_behind_cursor (d : Document) (target : Target) (context : InsertionContext)
    (hcount : d.lineCount ≤ maxCount)
    (h : d.planInsertion target context = .ok (selected, entry)) :
    let d' := d.insertEntry entry
    target.cursor.line + 1 ≤ entry.insertionLine ∧
      (∀ column, d.text.take (d.indexAt ⟨entry.insertionLine - 1, column⟩) <+: d'.text) ∧
      (d.lineCount < entry.insertionLine → d.text <+: d'.text) ∧
      ∀ range, target = .selection range → range.start ≤ range.stop →
        (d'.text.take (d.indexAt range.stop)).drop (d.indexAt range.start) = d.textIn range ∧
          (∀ p ∈ range, width (d'.text.take (d.indexAt p)) = d.offsetAt p) ∧
          ∃ before, PutsIn entry.text before d d' ∧ d.offsetAt range.stop ≤ width before := by
  intro d'
  have hcursor := cursor_lt_insertionLine hcount h
  have hstays : ∀ p : Position, p ≤ ⟨entry.insertionLine, 0⟩ →
      d'.text.take (d.indexAt p) = d.text.take (d.indexAt p) :=
    fun p hp => take_insertLine hp entry.text
  have hline : ∀ column, d.text.take (d.indexAt ⟨entry.insertionLine - 1, column⟩) <+: d'.text := by
    intro column
    rw [← hstays _ (.inl (by dsimp only; omega))]
    exact List.take_prefix _ _
  refine ⟨hcursor, hline, fun hpast => ?_, ?_⟩
  · have hall := hline 0
    rwa [indexAt_of_lineCount_le (by dsimp only; omega), List.take_length] at hall
  · rintro range rfl hordered
    have hstop : range.stop ≤ ⟨entry.insertionLine, 0⟩ := .inl hcursor
    have hwithin : ∀ p ∈ range, d'.text.take (d.indexAt p) = d.text.take (d.indexAt p) :=
      fun p hp => hstays p (Position.le_trans hp.2 hstop)
    refine ⟨?_, fun p hp => ?_, _, putsIn_insertLine d entry.insertionLine entry.text, ?_⟩
    · have hindex := indexAt_le_indexAt (d := d) hordered
      rw [hstays _ hstop, textIn, Nat.max_eq_right hindex, Nat.min_eq_left hindex]
    · rw [hwithin p hp, offsetAt]
    · obtain ⟨between, hbetween⟩ : d.text.take (d.indexAt range.stop) <+:
          d.text.take (d.indexAt ⟨entry.insertionLine, 0⟩) :=
        List.take_prefix_take_left (indexAt_le_indexAt hstop)
      rw [offsetAt, ← hbetween, width_append]
      exact Nat.le_add_right _ _

/-- A statement behind the symbol around a selection, where the selected text ends a line. -/
theorem insertEntry_behind_cursor_of_symbol :
    let d := ofText "f(\r\n  ab\r\n)".toList
    let range : Range := ⟨⟨1, 2⟩, ⟨1, 9⟩⟩
    let context : InsertionContext :=
      ⟨[⟨"f".toList, .ofLines 0 2, []⟩], "Repo".toList, "a/b.js".toList, Tag.standard⟩
    let entry := entryFor (.selection range) context "ab".toList
    d.lineCount ≤ maxCount ∧
      d.planInsertion (.selection range) context = .ok ("ab".toList, entry) ∧
      range.start ≤ range.stop ∧ entry.insertionLine = 3 ∧ d.text <+: (d.insertEntry entry).text ∧
      ((d.insertEntry entry).text.take 8).drop 6 = d.textIn range := by
  intro d range context entry
  have hcount : d.lineCount ≤ maxCount := by decide
  have hplan : d.planInsertion (.selection range) context = .ok ("ab".toList, entry) := by
    decide +kernel
  have hordered : range.start ≤ range.stop := by decide
  obtain ⟨-, hline, -, hrange⟩ := insertEntry_behind_cursor d _ context hcount hplan
  refine ⟨hcount, hplan, hordered, rfl, ?_, (hrange range rfl hordered).1⟩
  exact hline 1

theorem insertedLine_le (d : Document) (l : Nat) : d.insertedLine l ≤ l := by
  rw [insertedLine]
  split
  · exact Nat.le_refl l
  · split <;> omega

theorem insertedLine_le_lineCount (d : Document) (l : Nat) : d.insertedLine l ≤ d.lineCount := by
  rw [insertedLine]
  split
  · exact Nat.le_of_lt ‹_›
  · split <;> omega

/-- Whether a line inserted before line `l` becomes line `l`: the document has that line, or it is
the next one after a last line without a line feed. -/
def Reaches (d : Document) (l : Nat) : Prop :=
  l < d.lineCount ∨ l = d.lineCount ∧ ¬ (d.text = [] ∨ d.text.getLast? = some '\n')

instance (d : Document) (l : Nat) : Decidable (d.Reaches l) := inferInstanceAs (Decidable (_ ∨ _))

theorem insertedLine_eq_self_iff : d.insertedLine l = l ↔ d.Reaches l := by
  have hpos := d.lineCount_pos
  rw [insertedLine, Reaches]
  by_cases hl : l < d.lineCount
  · simp [hl]
  · by_cases hterminated : d.text = [] ∨ d.text.getLast? = some '\n'
    · simp only [hl, hterminated, if_true, if_false, not_true, and_false, or_false, iff_false]
      omega
    · simp only [hl, hterminated, if_false, not_false_eq_true, and_true, false_or]
      exact eq_comm

/-- A text that is empty or ends with a line feed has an empty last line. -/
theorem line?_last (h : d.text = [] ∨ d.text.getLast? = some '\n') :
    d.line? (d.lineCount - 1) = some [] := by
  obtain ⟨ls, t, hls, ht, hd⟩ := exists_eq_terminate_append d.text
  obtain rfl : t = [] := (terminated_iff ht).1 (hd ▸ h)
  rw [lineCount_eq hd hls ht, line?, hd, lines_terminate_append hls ht, Nat.add_sub_cancel,
    List.getElem?_concat_length]
  rfl

/-- A line becomes the line that it is inserted before exactly if the document reaches that line. -/
theorem line?_insertLine_eq_iff (hne : content ≠ []) (hfeed : '\n' ∉ content)
    (hreturn : '\r' ∉ content) :
    (d.insertLine l content).line? l = some content ↔ d.Reaches l := by
  constructor
  · intro hline
    by_contra hshort
    have hlt : d.insertedLine l < l :=
      Nat.lt_of_le_of_ne (insertedLine_le d l) fun h => hshort (insertedLine_eq_self_iff.1 h)
    obtain ⟨k, rfl⟩ := Nat.exists_eq_add_one_of_ne_zero (Nat.ne_zero_of_lt hlt)
    -- Behind the inserted line there is at most the empty last line.
    have hview := (shiftsLines_withoutReturns d hfeed (k + 1)).behind k (Nat.le_of_lt_succ hlt)
    rw [hline, Option.map_some, withoutReturns_of_not_mem hreturn] at hview
    have hpast : ¬ k + 1 < d.lineCount := fun h => hshort (.inl h)
    cases Nat.lt_or_ge k d.lineCount with
    | inl hk =>
      have hlast : k + 1 = d.lineCount := by omega
      have hterminated : d.text = [] ∨ d.text.getLast? = some '\n' := by
        by_contra hopen
        exact hshort (.inr ⟨hlast, hopen⟩)
      have hempty := line?_last hterminated
      rw [← hlast, Nat.add_sub_cancel] at hempty
      rw [hempty] at hview
      exact hne (Option.some.inj hview)
    | inr hk =>
      rw [line?_eq_none hk] at hview
      cases hview
  · intro hl
    have hline := line?_insertedLine d hfeed hreturn l
    rwa [insertedLine_eq_self_iff.2 hl] at hline

/-- Counted from one, line `l` and the line that something inserted before it becomes have the same
number exactly if the document reaches line `l`. -/
theorem nextCount_eq_insertedLine_iff (hcount : d.lineCount + 1 < maxCount) :
    nextCount l = d.insertedLine l + 1 ↔ d.Reaches l := by
  have hle := insertedLine_le d l
  have hend := insertedLine_le_lineCount d l
  rw [← insertedLine_eq_self_iff, nextCount]
  omega

/-- The statement of a plan becomes line `insertedLine` of its insertion line. That is the insertion
line itself exactly if the document reaches it. What is announced is the insertion line in any case,
counted from one; so it is the line of the statement exactly if the document reaches it. -/
theorem insertEntry_at_insertedLine (d : Document) (target : Target) (context : InsertionContext)
    (h : d.planInsertion target context = .ok (selected, entry)) :
    let d' := d.insertEntry entry
    let l := d.insertedLine entry.insertionLine
    let announced := nextCount entry.insertionLine
    d'.line? l = some entry.text ∧
      (d'.line? entry.insertionLine = some entry.text ↔ d.Reaches entry.insertionLine) ∧
      (∀ (w : World) (file text : Text), w.readText? file = some text →
        ∃ after, Run.onWorld (Run.finishInsertion file .apply d selected entry) w =
            (.ok [Report.done ("Inserted log for \"".toList ++ selected ++
              "\" at line ".toList ++ numeral announced)], after) ∧
          after.readText? file = some d'.text) ∧
      (d.lineCount + 1 < maxCount → (announced = l + 1 ↔ d.Reaches entry.insertionLine)) := by
  intro d' l announced
  obtain ⟨hne, hfeed, hreturn⟩ := text_of_planInsertion h
  refine ⟨line?_insertedLine d hfeed hreturn _, line?_insertLine_eq_iff hne hfeed hreturn, ?_,
    nextCount_eq_insertedLine_iff⟩
  intro w file text htext
  obtain ⟨after, hrun, hafter⟩ :=
    Run.onWorld_update htext d'.text (Report.inserted selected entry)
  exact ⟨after, hrun, hafter⟩

/-- A statement after the only line of a text, which is announced as the second line. -/
theorem insertEntry_at_insertedLine_unterminated :
    let d := ofText "let a".toList
    let target : Target := .selection ⟨⟨0, 4⟩, ⟨0, 5⟩⟩
    let context : InsertionContext := ⟨[], "Repo".toList, "b/a.js".toList, Tag.standard⟩
    let entry := entryFor target context ['a']
    let w : World := ⟨.directory [("a.js".toList, .file (encode d.text))], []⟩
    d.planInsertion target context = .ok (['a'], entry) ∧ d.Reaches entry.insertionLine ∧
      d.lineCount + 1 < maxCount ∧ w.readText? "a.js".toList = some d.text ∧
      (d.insertEntry entry).line? 1 = some entry.text ∧
      nextCount entry.insertionLine = d.insertedLine entry.insertionLine + 1 ∧
      ∃ after, Run.onWorld (Run.finishInsertion "a.js".toList .apply d ['a'] entry) w =
          (.ok [Report.done "Inserted log for \"a\" at line 2".toList], after) ∧
        after.readText? "a.js".toList = some (d.insertEntry entry).text := by
  intro d target context entry w
  have hplan : d.planInsertion target context = .ok (['a'], entry) := by decide +kernel
  have hreaches : d.Reaches entry.insertionLine := by decide
  have hcount : d.lineCount + 1 < maxCount := by decide
  have htext : w.readText? "a.js".toList = some d.text := by decide +kernel
  have hprinted : "Inserted log for \"".toList ++ ['a'] ++ "\" at line ".toList ++
      numeral (nextCount entry.insertionLine) = "Inserted log for \"a\" at line 2".toList := by
    decide +kernel
  obtain ⟨hline, -, hannounced, hnumber⟩ := insertEntry_at_insertedLine d target context hplan
  have hrun := hannounced w _ _ htext
  rw [hprinted] at hrun
  exact ⟨hplan, hreaches, hcount, htext, hline, (hnumber hcount).2 hreaches, hrun⟩

/-- After the empty last line of a text there is no line for the statement: it becomes that line,
which is the one before its insertion line. A run of the program announces the insertion line. -/
theorem insertEntry_short_of_insertionLine :
    let d := ofText "a\n".toList
    let target : Target := .expression 1 "x".toList
    let context : InsertionContext := ⟨[], "Repo".toList, "/a.js".toList, Tag.standard⟩
    let entry := entryFor target context ['x']
    let w : World := ⟨.directory [("a.js".toList, .file (encode d.text))], []⟩
    let args := ["insert", "a.js", "-l", "2", "-e", "x", "--label", "Repo"].map String.toList
    let told := Program.onWorld (some "settings.json".toList) args w
    d.planInsertion target context = .ok (['x'], entry) ∧
      (d.insertEntry entry).line? entry.insertionLine ≠ some entry.text ∧
      (d.insertEntry entry).line? 1 = some entry.text ∧ entry.insertionLine = 2 ∧
      told.1 = ⟨0, [Report.done "Inserted log for \"x\" at line 3".toList], none⟩ ∧
      told.2.readText? "a.js".toList = some (d.insertEntry entry).text := by
  decide +kernel

end Document
end Logmark
