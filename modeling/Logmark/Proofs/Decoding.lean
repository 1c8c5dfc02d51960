import Logmark.Proofs.Grammar
import Logmark.Statement.Entry

/-!
Statements that are made are read back. The line made for an expression spells the normalized
fields under its own tag, whatever characters the expression holds. It spells nothing under another
tag, and a line break after a line does not matter to the reader.
-/
namespace Logmark

open Text Logmark.Field

namespace Statement

variable {tag tag' : Tag} {line selected : Text} {s : Statement}

/-- A statement whose fields are in order is written as a line that spells it. -/
theorem spells_render (hlabel : IsField s.label) (hfile : IsField s.file)
    (hsymbol : IsField s.symbol) (hline : s.line ≤ maxCount)
    (hshown : trim s.shown = trim s.expression) (hblank : allBlank s.expression = false) :
    Spells tag { s with expression := trim s.expression } (s.render tag) := by
  have hargument : trim (' ' :: s.expression) = trim s.expression :=
    trim_allBlank_append (t := [' ']) rfl
  have hfits : Fits { s with expression := trim s.expression } (numeral s.line)
      (' ' :: s.expression) := {
    label := hlabel
    file := hfile
    symbol := hsymbol
    number_ne_nil := Nat.toDigits_ne_nil
    digits := fun _ => isDigit_of_mem_numeral
    value := Nat.ofDigitChars_ten_toDigits
    line_le := hline
    shown := hshown.trans hargument.symm
    expression := hargument.symm
    not_blank := by simp [hblank] }
  have hclosing : IsClosing ([] ++ [';'] ++ []) := ⟨[], [], rfl, rfl, .inl rfl⟩
  have hrender : s.render tag = [] ++ callStart ++ [] ++ opening tag ++
      (messageWith { s with expression := trim s.expression } (numeral s.line) ++ messageEnd ++
        ' ' :: s.expression ++ ')' :: ([] ++ [';'] ++ [])) := by
    simp [render, message, messageWith, opening, List.intercalate]
  rw [hrender]
  exact .call allBlank_nil allBlank_nil hfits hclosing

theorem isField_unknownWorkspace : IsField unknownWorkspace := by
  constructor <;> decide

theorem isField_unknownFile : IsField unknownFile := by
  constructor <;> decide

theorem isField_unknownName : IsField Symbol.unknownName := by
  constructor <;> decide

/-- The line made for an expression spells its normalized fields. -/
theorem spells_text_ofSelection (site : Site) (symbol : Option Symbol)
    (h : allBlank selected = false) :
    Spells tag { ofSelection selected site symbol with expression := trim selected }
      (Entry.ofSelection tag selected site symbol).text :=
  spells_render (s := ofSelection selected site symbol) (isField_ofText _ isField_unknownWorkspace)
    (isField_ofText _ isField_unknownFile) (isField_ofText _ isField_unknownName)
    (Nat.min_le_right _ _) rfl h

theorem isLine_of_spells (h : Spells tag s line) : isLine tag line = true := by
  rw [isLine, h.ofLine?]
  rfl

/-- Every line that is made is a statement of its tag. -/
theorem isLine_text_ofSelection (site : Site) (symbol : Option Symbol)
    (h : allBlank selected = false) :
    isLine tag (Entry.ofSelection tag selected site symbol).text = true :=
  isLine_of_spells (spells_text_ofSelection site symbol h)

theorem any_isBreak_name (tag : Tag) : tag.name.any isBreak = false := by
  rw [List.any_eq_false]
  intro c hc hbreak
  have hblank := isBlank_of_isBreak hbreak
  rw [tag.not_blank c hc] at hblank
  contradiction

theorem any_isBreak_render (tag : Tag) (hlabel : s.label.any isBreak = false)
    (hfile : s.file.any isBreak = false) (hsymbol : s.symbol.any isBreak = false)
    (hshown : s.shown.any isBreak = false) (hexpression : s.expression.any isBreak = false) :
    (s.render tag).any isBreak = false := by
  have hcall : callStart.any isBreak = false := by decide
  have hseparator : separator.any isBreak = false := by decide
  have hend : messageEnd.any isBreak = false := by decide
  have hmessage : s.message.any isBreak = false := by
    simp only [message, List.intercalate_cons_cons, List.intercalate_singleton, List.any_append,
      hseparator, hlabel, hfile, hsymbol, any_isBreak_numeral, hshown, Bool.or_self]
  simp only [render, List.any_append, List.any_cons, hcall, hend, hmessage, hexpression,
    any_isBreak_name, Bool.or_false, Bool.false_or]
  decide

/-- A line that is made has no line break, since the normal form of a field has none. -/
theorem any_isBreak_text_ofSelection (tag : Tag) (site : Site) (symbol : Option Symbol)
    (h : selected.any isBreak = false) :
    (Entry.ofSelection tag selected site symbol).text.any isBreak = false := by
  apply any_isBreak_render
  · exact any_isBreak_ofText _ (by decide)
  · exact any_isBreak_ofText _ (by decide)
  · exact any_isBreak_ofText _ (by decide)
  · exact h
  · exact h

/-- The blank after a tag ends it, so a message begins with one tag only. -/
theorem eq_of_opening_append {x y : Text} (h : opening tag ++ x = opening tag' ++ y) :
    tag = tag' := by
  have hname : ∀ (t : Tag) (z : Text), (t.name ++ ' ' :: z).takeWhile (!isBlank ·) = t.name := by
    intro t z
    rw [List.takeWhile_append_of_pos (by simpa using t.not_blank),
      List.takeWhile_cons_of_neg (by decide), List.append_nil]
  have hnames : tag.name ++ ' ' :: x = tag'.name ++ ' ' :: y := by simpa [opening] using h
  have hsame : tag.name = tag'.name := by rw [← hname tag x, hnames, hname]
  cases tag
  cases tag'
  cases hsame
  rfl

/-- A statement of a tag opens with the call and the tag. -/
theorem exists_opening_of_isLine (h : isLine tag line = true) :
    ∃ r rest, trimStart (dropEndWhile isBreak line) = callStart ++ r ∧
      trimStart r = opening tag ++ rest := by
  obtain ⟨s, hs⟩ := Option.isSome_iff_exists.1 h
  obtain ⟨body, hbody, -⟩ := Option.bind_eq_some_iff.1 hs
  obtain ⟨r, hr, rest, hrest, -⟩ := body?_eq_some_iff_trimmed.1 hbody
  exact ⟨r, rest, hr, hrest⟩

/-- No line is a statement of two tags. -/
theorem eq_of_isLine (h : isLine tag line = true) (h' : isLine tag' line = true) : tag = tag' := by
  obtain ⟨r, rest, hr, hrest⟩ := exists_opening_of_isLine h
  obtain ⟨r', rest', hr', hrest'⟩ := exists_opening_of_isLine h'
  obtain rfl : r = r' := List.append_cancel_left (hr.symm.trans hr')
  exact eq_of_opening_append (hrest.symm.trans hrest')

/-- What is written under one tag is no statement of another, whatever its parts are. -/
theorem isLine_render_of_ne (s : Statement) (h : tag ≠ tag') :
    isLine tag' (s.render tag) = false := by
  refine Bool.eq_false_iff.2 fun hline => h ?_
  obtain ⟨r, rest, hr, hrest⟩ := exists_opening_of_isLine hline
  have hrender : s.render tag = callStart ++ (opening tag ++
      (s.message ++ messageEnd ++ ' ' :: s.expression ++ [')'])) ++ [';'] := by
    simp [render, opening]
  have hstart : ∀ t : Text, trimStart (callStart ++ t) = callStart ++ t :=
    fun t => trimStart_cons_of_not_isBlank (by decide)
  have hopening : ∀ t : Text, trimStart (opening tag ++ t) = opening tag ++ t :=
    fun t => trimStart_cons_of_not_isBlank (by decide)
  rw [hrender, dropEndWhile_append_cons (by decide), List.append_assoc, hstart,
    List.append_assoc] at hr
  rw [← List.append_cancel_left hr, hopening] at hrest
  exact eq_of_opening_append hrest

@[simp] theorem isLine_nil (tag : Tag) : isLine tag [] = false := rfl

/-- A line is read in the same way with line breaks after it. -/
theorem isLine_append_breaks {breaks : Text} (h : ∀ c ∈ breaks, isBreak c = true) :
    isLine tag (line ++ breaks) = isLine tag line := by
  rw [isLine, ofLine?, body?, dropEndWhile_append_of_all h]
  rfl

/-- Decoding undoes encoding: the line made for an expression that is not blank is read as its
normalized fields, its line number counted from one, and the expression. -/
theorem ofLine?_text_ofSelection (tag : Tag) (selected : Text) (site : Site)
    (symbol : Option Symbol) (h : trim selected ≠ []) :
    ofLine? tag (Entry.ofSelection tag selected site symbol).text = some {
      label := Field.ofText site.label unknownWorkspace
      file := Field.ofText (fileLabel site.path) unknownFile
      symbol := Field.ofText ((symbol.map (·.name)).getD []) Symbol.unknownName
      line := min (site.cursorLine + 1) maxCount
      shown := selected
      expression := trim selected } := by
  have hblank : allBlank selected = false :=
    Bool.eq_false_iff.2 fun hblank => h (trim_eq_nil_iff.2 hblank)
  exact (spells_text_ofSelection site symbol hblank).ofLine?

/-- An expression with the end of a message and a separator in it, under names with separators. -/
theorem ofLine?_text_ofSelection_tangled :
    trim "f(\":\", a :: b)".toList ≠ [] ∧
      ofLine? Tag.standard (Entry.ofSelection Tag.standard "f(\":\", a :: b)".toList
        ⟨"My :: Repo ::".toList, "/a/b :: c/d.js".toList, maxCount⟩ none).text = some {
          label := "My::Repo::".toList
          file := "b::c/d.js".toList
          symbol := "unknown symbol".toList
          line := maxCount
          shown := "f(\":\", a :: b)".toList
          expression := "f(\":\", a :: b)".toList } := by
  have hne : trim "f(\":\", a :: b)".toList ≠ [] := by decide
  refine ⟨hne, (ofLine?_text_ofSelection _ _ _ _ hne).trans ?_⟩
  decide +kernel

end Statement
end Logmark
