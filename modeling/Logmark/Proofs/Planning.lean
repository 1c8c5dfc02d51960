import Logmark.Insertion
import Logmark.Proofs.Decoding

/-!
What a planned insertion is. A plan exists exactly if the cursor is on a line of the document and
the selected expression is one line with something on it. The statement it makes is then one line
that its own tag recognizes.
-/
namespace Logmark.Document

open Text

variable {d : Document} {target : Target} {context : InsertionContext} {selected : Text}
  {entry : Entry}

/-- The entry that logs an expression selected by a target. -/
def entryFor (target : Target) (context : InsertionContext) (selected : Text) : Entry :=
  Entry.ofSelection context.tag selected
    ⟨context.label, context.path, target.cursor.line⟩
    (Outline.locate target.cursor context.outline)

theorem checkLine_eq_ok_iff {l : Nat} : d.checkLine l = .ok () ↔ l < d.lineCount := by
  rw [checkLine]
  split
  · simp_all
  · split <;> simp_all

/-- On a line of the document only the selected expression decides whether there is a plan. -/
theorem planInsertion_of_lt (h : target.cursor.line < d.lineCount) (context : InsertionContext) :
    d.planInsertion target context =
      if target.selected d = [] then .error .emptySelection
      else if (target.selected d).any isBreak then .error .multiLineSelection
      else .ok (target.selected d, entryFor target context (target.selected d)) := by
  rw [planInsertion, checkLine_eq_ok_iff.2 h]
  by_cases hnil : target.selected d = []
  · simp only [hnil, if_true]
    rfl
  by_cases hbreak : (target.selected d).any isBreak = true
  · simp only [hnil, hbreak, if_true, if_false]
    rfl
  · simp only [hnil, hbreak, if_false]
    rfl

/-- Past the last line there is none, whatever is selected. -/
theorem planInsertion_of_le (h : d.lineCount ≤ target.cursor.line) (context : InsertionContext) :
    d.planInsertion target context =
      match lineNumber? target.cursor.line with
      | some number => .error (.pastEnd number d.lineCount)
      | none => .error (.unnumbered target.cursor.line) := by
  rw [planInsertion, checkLine, if_neg (Nat.not_lt.2 h)]
  cases lineNumber? target.cursor.line <;> rfl

/-- The conditions of a plan and what it is under them. -/
theorem planInsertion_eq_ok_iff :
    d.planInsertion target context = .ok (selected, entry) ↔
      d.checkLine target.cursor.line = .ok () ∧ selected = target.selected d ∧ selected ≠ [] ∧
        selected.any isBreak = false ∧ entry = entryFor target context selected := by
  rw [checkLine_eq_ok_iff]
  cases Nat.lt_or_ge target.cursor.line d.lineCount with
  | inl hlt =>
    rw [planInsertion_of_lt hlt]
    split
    · rename_i hnil
      simp only [reduceCtorEq, false_iff]
      rintro ⟨-, rfl, hne, -⟩
      exact hne hnil
    split
    · rename_i hbreak
      simp only [reduceCtorEq, false_iff]
      rintro ⟨-, rfl, -, hnone, -⟩
      rw [hbreak] at hnone
      contradiction
    · rename_i hne hbreak
      constructor
      · rintro ⟨⟩
        exact ⟨hlt, rfl, hne, Bool.eq_false_iff.2 hbreak, rfl⟩
      · rintro ⟨-, rfl, -, -, rfl⟩
        rfl
  | inr hle =>
    have hno : ¬ target.cursor.line < d.lineCount := Nat.not_lt.2 hle
    rw [planInsertion_of_le hle]
    split <;> simp [hno]

theorem trimmed_selected (d : Document) (target : Target) : Trimmed (target.selected d) := by
  cases target <;> exact trimmed_trim _

theorem isLine_of_planInsertion (h : d.planInsertion target context = .ok (selected, entry)) :
    Statement.isLine context.tag entry.text = true := by
  obtain ⟨-, hselected, hne, -, rfl⟩ := planInsertion_eq_ok_iff.1 h
  apply Statement.isLine_text_ofSelection
  have htrimmed : Trimmed selected := hselected ▸ trimmed_selected d target
  exact Bool.eq_false_iff.2 fun hblank => hne (htrimmed.eq_nil_of_allBlank hblank)

theorem any_isBreak_of_planInsertion (h : d.planInsertion target context = .ok (selected, entry)) :
    entry.text.any isBreak = false := by
  obtain ⟨-, -, -, hbreaks, rfl⟩ := planInsertion_eq_ok_iff.1 h
  exact Statement.any_isBreak_text_ofSelection _ _ _ hbreaks

/-- The statement of a plan is one line with something on it. -/
theorem text_of_planInsertion (h : d.planInsertion target context = .ok (selected, entry)) :
    entry.text ≠ [] ∧ '\n' ∉ entry.text ∧ '\r' ∉ entry.text := by
  have hbreaks := List.any_eq_false.1 (any_isBreak_of_planInsertion h)
  refine ⟨fun hnil => ?_, fun hmem => hbreaks '\n' hmem rfl, fun hmem => hbreaks '\r' hmem rfl⟩
  have hpass := isLine_of_planInsertion h
  rw [hnil, Statement.isLine_nil] at hpass
  contradiction

end Logmark.Document
