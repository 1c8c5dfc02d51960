import Logmark.Document.Insert
import Logmark.Proofs.LineRemoval

/-!
Inserting a line and removing it again. An inserted line is one more line of the document, before
the line with its number or at the end. A test of lines that it passes removes it without a trace,
unless it was added after an unterminated last line: there a carriage return at the end of that line
and the line feed added after it become one line break.
-/
namespace Logmark

open Text

variable {p : Text → Bool} {t content : Text} {ls : List Text} {d : Document}

/-- What a line break has before its line feed. -/
def LineBreak.lead : LineBreak → Text
  | lf => []
  | crlf => ['\r']

theorem LineBreak.text_eq (b : LineBreak) : b.text = b.lead ++ ['\n'] := by
  cases b <;> rfl

theorem LineBreak.isBreak_of_mem_lead (b : LineBreak) : ∀ c ∈ b.lead, isBreak c = true := by
  cases b <;> simp [lead, isBreak]

theorem LineBreak.not_mem_lead (b : LineBreak) : '\n' ∉ b.lead := by
  cases b <;> decide

theorem LineBreak.not_mem_append_lead (b : LineBreak) {line : Text} (h : '\n' ∉ line) :
    '\n' ∉ line ++ b.lead := by
  simp [h, b.not_mem_lead]

theorem Text.FeedFree.inserted {line : Text} (h : FeedFree ls) (hline : '\n' ∉ line) (l : Nat) :
    FeedFree (ls.take l ++ line :: ls.drop l) :=
  (h.sublist (List.take_sublist l ls)).append
    (List.forall_mem_cons.2 ⟨hline, h.sublist (List.drop_sublist l ls)⟩)

/-- Dropping the line break that was added gives the line back, but for a carriage return of its own
that stood before a line feed alone. -/
theorem dropReturn_append_lead (b : LineBreak) (line : Text) :
    dropReturn (line ++ b.lead) = if b = .lf then dropReturn line else line := by
  cases b with
  | lf => simp [LineBreak.lead]
  | crlf =>
    rw [LineBreak.lead, dropReturn_append line (by simp), if_neg (by decide)]
    exact List.append_nil line

namespace Document

theorem lineCount_eq (hd : d.text = terminate ls ++ t) (h : FeedFree ls) (ht : '\n' ∉ t) :
    d.lineCount = ls.length + 1 := by
  rw [lineCount, hd, lines_terminate_append h ht, List.length_append]
  rfl

theorem text_appendLine (hd : d.text = terminate ls ++ t) (ht : '\n' ∉ t) (content : Text) :
    (d.appendLine content).text =
      if t = [] then terminate (ls ++ [content ++ d.lineBreak.lead])
      else terminate (ls ++ [t ++ d.lineBreak.lead]) ++ content := by
  rw [appendLine, hd]
  by_cases hnil : t = []
  · rw [if_pos ((terminated_iff ht).2 hnil), if_pos hnil]
    simp [hnil, LineBreak.text_eq]
  · rw [if_neg (fun h => hnil ((terminated_iff ht).1 h)), if_neg hnil]
    simp [LineBreak.text_eq]

/-- Where an inserted line stands: before line `l` if there is one, and at the end otherwise, where
a last line that is not empty is terminated for it. -/
theorem text_insertLine (hd : d.text = terminate ls ++ t) (h : FeedFree ls) (ht : '\n' ∉ t)
    (l : Nat) (content : Text) :
    (d.insertLine l content).text =
      if l ≤ ls.length ∨ t = [] then
        terminate (ls.take l ++ (content ++ d.lineBreak.lead) :: ls.drop l) ++ t
      else terminate (ls ++ [t ++ d.lineBreak.lead]) ++ content := by
  have happend := text_appendLine hd ht content
  rw [insertLine, hd, cutAtLine?_terminate_append h ht]
  by_cases hl : l ≤ ls.length
  · rw [if_pos hl, if_pos (.inl hl)]
    dsimp only
    by_cases hend : terminate (ls.drop l) ++ t = [] ∧ terminate (ls.take l) ≠ []
    · -- Before an empty last line is at the end, where the new line has a break of its own.
      obtain ⟨hdrop, hnil⟩ := List.append_eq_nil_iff.1 hend.1
      have hle : ls.length ≤ l := List.drop_eq_nil_iff.1 (terminate_eq_nil_iff.1 hdrop)
      rw [if_pos hend, happend, if_pos hnil, hnil, List.take_of_length_le hle,
        List.drop_of_length_le hle, List.append_nil]
    · rw [if_neg hend]
      simp [LineBreak.text_eq]
  · have hle : ls.length ≤ l := Nat.le_of_not_le hl
    rw [if_neg hl]
    simp only [happend, hl, false_or, List.take_of_length_le hle, List.drop_of_length_le hle]
    by_cases hnil : t = [] <;> simp [hnil]

/-- The lines of a document with a line inserted. -/
theorem lines_insertLine (hd : d.text = terminate ls ++ t) (h : FeedFree ls) (ht : '\n' ∉ t)
    (hcontent : '\n' ∉ content) (l : Nat) :
    lines (d.insertLine l content).text =
      if l ≤ ls.length ∨ t = [] then
        ls.take l ++ (content ++ d.lineBreak.lead) :: ls.drop l ++ [t]
      else ls ++ [t ++ d.lineBreak.lead] ++ [content] := by
  rw [text_insertLine hd h ht]
  split
  · exact lines_terminate_append (h.inserted (d.lineBreak.not_mem_append_lead hcontent) l) ht
  · exact lines_terminate_append
      (h.append (feedFree_singleton (d.lineBreak.not_mem_append_lead ht))) hcontent

/-- Inserting a line adds it to the lines that pass a test, if it passes, and changes nothing else
about them. -/
theorem countP_lines_insertLine (hp : LineTest p) (hcontent : '\n' ∉ content) (l : Nat) :
    (lines (d.insertLine l content).text).countP p =
      (lines d.text).countP p + [content].countP p := by
  obtain ⟨ls, t, hls, ht, hd⟩ := exists_eq_terminate_append d.text
  have hpad : ∀ line : Text, p (line ++ d.lineBreak.lead) = p line :=
    fun line => hp.append_breaks line _ d.lineBreak.isBreak_of_mem_lead
  have hcount : (ls.take l).countP p + (ls.drop l).countP p = ls.countP p := by
    rw [← List.countP_append, List.take_append_drop]
  rw [lines_insertLine hd hls ht hcontent, hd, lines_terminate_append hls ht]
  split
  · simp only [List.countP_append, List.countP_cons, List.countP_nil, hpad]
    omega
  · simp only [List.countP_append, List.countP_cons, List.countP_nil, hpad]

/-- The last character stays or is the last one of the inserted line, or a line feed. -/
theorem getLast?_insertLine {c : Char} (hd : d.text.getLast? ≠ some c) (hne : content ≠ [])
    (hcontent : c ∉ content) (hc : c ≠ '\n') (l : Nat) :
    (d.insertLine l content).text.getLast? ≠ some c := by
  obtain ⟨ls, t, hls, ht, htext⟩ := exists_eq_terminate_append d.text
  rw [text_insertLine htext hls ht]
  rw [htext] at hd
  split
  · by_cases hnil : t = []
    · rw [hnil, List.append_nil, getLast?_terminate (by simp)]
      exact fun h => hc (Option.some.inj h).symm
    · rw [List.getLast?_append_of_ne_nil _ hnil] at hd ⊢
      exact hd
  · rw [List.getLast?_append_of_ne_nil _ hne]
    exact getLast?_ne_of_not_mem hcontent

/-- A line that passes the test is removed again, in the middle of a text and at its end. -/
theorem removeLines_insertLine (hp : LineTest p) (hpass : p content = true)
    (hcontent : '\n' ∉ content) (hd : d.text.getLast? ≠ some '\r') (l : Nat) :
    removeLines p (d.insertLine l content).text = removeLines p d.text := by
  obtain ⟨ls, t, hls, ht, htext⟩ := exists_eq_terminate_append d.text
  rw [text_insertLine htext hls ht, htext]
  split
  · have hpad : p (content ++ d.lineBreak.lead) = true :=
      (hp.append_breaks content _ d.lineBreak.isBreak_of_mem_lead).trans hpass
    rw [removeLines_within hp hpad (by simp [hcontent, d.lineBreak.not_mem_lead])
      (hls.sublist (List.take_sublist l ls)) (hls.sublist (List.drop_sublist l ls)) ht,
      List.take_append_drop]
  · rename_i hend
    have hnil : t ≠ [] := fun hnil => hend (.inr hnil)
    have hreturn : dropReturn t = t := by
      rw [htext, List.getLast?_append_of_ne_nil _ hnil] at hd
      exact dropReturn_eq_self_iff.2 hd
    rw [removeLines_last hp hpass hcontent hls ht d.lineBreak.not_mem_lead
      d.lineBreak.isBreak_of_mem_lead, dropReturn_append_lead, hreturn, ite_self,
      removeLines_terminate_append hp hls ht]

/-- A line added after an unterminated text is removed together with the line break before it, which
takes a carriage return at the end of the text with it if the document's line break has none. -/
theorem removeLines_insertLine_pastEnd (hp : LineTest p) (hpass : p content = true)
    (hcontent : '\n' ∉ content) (hopen : ¬ (d.text = [] ∨ d.text.getLast? = some '\n'))
    (hnone : ∀ line ∈ lines d.text, p line = false) {l : Nat} (hl : d.lineCount ≤ l) :
    removeLines p (d.insertLine l content).text =
      if d.lineBreak = .lf then dropReturn d.text else d.text := by
  obtain ⟨ls, t, hls, ht, htext⟩ := exists_eq_terminate_append d.text
  rw [htext, terminated_iff ht] at hopen
  rw [lineCount_eq htext hls ht] at hl
  rw [htext, lines_terminate_append hls ht] at hnone
  have hkeep : ls.filter (!p ·) = ls :=
    List.filter_eq_self.2 fun line hline => by simp [hnone line (by simp [hline])]
  have hlast : p t = false := hnone t (by simp)
  have hpast : ¬ (l ≤ ls.length ∨ t = []) := by
    rintro (hle | hnil)
    · omega
    · exact hopen hnil
  rw [text_insertLine htext hls ht, if_neg hpast, removeLines_last hp hpass hcontent hls ht
    d.lineBreak.not_mem_lead d.lineBreak.isBreak_of_mem_lead, hlast, if_neg (by decide), hkeep,
    dropReturn_append_lead, htext, dropReturn_append _ hopen]
  split <;> rfl

end Document

namespace Removal

/-- A statement appended to an unterminated text is removed again, and this restores the text except
where it ends with a carriage return and its line break is a line feed: then that carriage return is
lost. -/
theorem text_ofText_insertLine_pastEnd (tag : Tag) (s : Text) (l : Nat) (selected : Text)
    (site : Site) (symbol : Option Symbol) (hne : s ≠ []) (hopen : s.getLast? ≠ some '\n')
    (hnone : ∀ line ∈ lines s, Statement.isLine tag line = false)
    (hl : (Document.ofText s).lineCount ≤ l) (hselected : trim selected ≠ [])
    (hbreaks : selected.any isBreak = false) :
    let entry := Entry.ofSelection tag selected site symbol
    let removal := ofText tag ((Document.ofText s).insertLine l entry.text).text
    let lossy := s.getLast? = some '\r' ∧ LineBreak.ofText s = .lf
    removal.removed = 1 ∧ (removal.text = s ↔ ¬ lossy) ∧ (lossy → removal.text = s.dropLast) := by
  intro entry removal lossy
  have hblank : allBlank selected = false :=
    Bool.eq_false_iff.2 fun hblank => hselected (trim_eq_nil_iff.2 hblank)
  have hpass : Statement.isLine tag entry.text = true :=
    Statement.isLine_text_ofSelection site symbol hblank
  have hfree : '\n' ∉ entry.text := by
    have := Statement.any_isBreak_text_ofSelection tag site symbol hbreaks
    exact fun hmem => by simpa [isBreak] using List.any_eq_false.1 this '\n' hmem
  have hremoved : removal.removed = 1 := by
    have hzero : (lines s).countP (Statement.isLine tag) = 0 :=
      List.countP_eq_zero.2 fun line hline => by simp [hnone line hline]
    rw [show removal.removed = _ from removed_ofText tag _,
      Document.countP_lines_insertLine (lineTest_isLine tag) hfree, Document.text_ofText, hzero]
    simp [hpass]
  have htext : removal.text = if LineBreak.ofText s = .lf then dropReturn s else s :=
    Document.removeLines_insertLine_pastEnd (lineTest_isLine tag) hpass hfree
      (fun h => h.elim hne hopen) hnone hl
  refine ⟨hremoved, ?_, ?_⟩
  · rw [htext]
    by_cases hlf : LineBreak.ofText s = .lf
    · simp [lossy, hlf, dropReturn_eq_self_iff]
    · simp [lossy, hlf]
  · rintro ⟨hreturn, hlf⟩
    rw [htext, if_pos hlf, dropReturn, if_pos hreturn]

/-- A carriage return at the end is kept where the first line ends with one too. -/
theorem text_ofText_insertLine_pastEnd_crlf :
    let s := "a\r\nb\r".toList
    let entry := Entry.ofSelection Tag.standard "x".toList ⟨"Repo".toList, "a/b.js".toList, 1⟩ none
    let removal := ofText Tag.standard ((Document.ofText s).insertLine 2 entry.text).text
    s ≠ [] ∧ s.getLast? ≠ some '\n' ∧
      (∀ line ∈ lines s, Statement.isLine Tag.standard line = false) ∧
      (Document.ofText s).lineCount ≤ 2 ∧ trim "x".toList ≠ [] ∧ "x".toList.any isBreak = false ∧
      removal.removed = 1 ∧ removal.text = s := by
  intro s entry removal
  have hne : s ≠ [] := by decide
  have hopen : s.getLast? ≠ some '\n' := by decide
  have hnone : ∀ line ∈ lines s, Statement.isLine Tag.standard line = false := by decide
  have hl : (Document.ofText s).lineCount ≤ 2 := by decide
  have hselected : trim "x".toList ≠ [] := by decide
  have hbreaks : "x".toList.any isBreak = false := by decide
  obtain ⟨hremoved, htext, -⟩ := text_ofText_insertLine_pastEnd Tag.standard s 2 "x".toList
    ⟨"Repo".toList, "a/b.js".toList, 1⟩ none hne hopen hnone hl hselected hbreaks
  exact ⟨hne, hopen, hnone, hl, hselected, hbreaks, hremoved, htext.2 (by decide)⟩

/-- The carriage return at the end of a text of one line is lost. -/
theorem text_ofText_insertLine_pastEnd_lossy :
    let s := "a\r".toList
    let entry := Entry.ofSelection Tag.standard "x".toList ⟨"Repo".toList, "a/b.js".toList, 0⟩ none
    let removal := ofText Tag.standard ((Document.ofText s).insertLine 1 entry.text).text
    s ≠ [] ∧ s.getLast? ≠ some '\n' ∧
      (∀ line ∈ lines s, Statement.isLine Tag.standard line = false) ∧
      (Document.ofText s).lineCount ≤ 1 ∧ trim "x".toList ≠ [] ∧ "x".toList.any isBreak = false ∧
      removal.text = "a".toList ∧ removal.text ≠ s := by
  decide +kernel

end Removal
end Logmark
