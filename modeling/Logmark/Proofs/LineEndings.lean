import Logmark.Proofs.Inserting
import Logmark.Proofs.Listing
import Logmark.Proofs.Places
import Logmark.Proofs.Planning

/-!
Texts with a carriage return before every line feed. Such a text has the lines of the text without
the carriage returns, so everything that is done line by line is done to both alike: places, plans,
insertions, listings and removals. What the two texts have in common is said on their normal forms,
where each terminated line of the one has a carriage return more than that of the other.
-/
namespace Logmark

namespace Text

variable {p : Text → Bool} {s t line rest : Text} {ls before : List Text}

/-- `s` with a carriage return before every line feed. -/
def withReturns (s : Text) : Text := s.flatMap fun c => if c = '\n' then ['\r', '\n'] else [c]

@[simp] theorem withReturns_nil : withReturns [] = [] := rfl

theorem withReturns_cons (c : Char) (s : Text) :
    withReturns (c :: s) = (if c = '\n' then ['\r', '\n'] else [c]) ++ withReturns s :=
  List.flatMap_cons

@[simp] theorem withReturns_append (s t : Text) :
    withReturns (s ++ t) = withReturns s ++ withReturns t := List.flatMap_append

theorem withReturns_of_not_mem (h : '\n' ∉ s) : withReturns s = s := by
  induction s with
  | nil => rfl
  | cons c s ih =>
    obtain ⟨hc, hs⟩ := List.ne_and_not_mem_of_not_mem_cons h
    rw [withReturns_cons, if_neg (Ne.symm hc), ih hs, List.singleton_append]

/-- On the normal form of a text its terminated lines get the carriage returns. -/
theorem withReturns_terminate (h : FeedFree ls) :
    withReturns (terminate ls) = terminate (ls.map (· ++ ['\r'])) := by
  induction ls with
  | nil => rfl
  | cons line ls ih =>
    obtain ⟨hline, hls⟩ := h.of_cons
    rw [terminate_cons, withReturns_append, withReturns_cons, withReturns_of_not_mem hline, ih hls,
      if_pos rfl, List.map_cons, terminate_cons]
    simp

theorem feedFree_map_return (h : FeedFree ls) : FeedFree (ls.map (· ++ ['\r'])) := by
  intro line hline
  obtain ⟨line, hmem, rfl⟩ := List.mem_map.1 hline
  simp [h line hmem]

/-- Lines with no carriage return in them. -/
def ReturnFree (ls : List Text) : Prop := ∀ line ∈ ls, '\r' ∉ line

theorem ReturnFree.sublist {ms : List Text} (h : ReturnFree ls) (hms : ms.Sublist ls) :
    ReturnFree ms :=
  fun line hline => h line (hms.subset hline)

theorem returnFree_of_not_mem (h : '\r' ∉ terminate ls ++ t) : ReturnFree ls ∧ '\r' ∉ t := by
  refine ⟨fun line hline hreturn => h (List.mem_append_left _ ?_),
    fun hreturn => h (List.mem_append_right _ hreturn)⟩
  exact List.mem_flatMap.2 ⟨line, hline, List.mem_append_left _ hreturn⟩

/-- The view of a text as lines does not see the carriage returns. -/
theorem map_dropReturn_lines_withReturns (h : '\r' ∉ s) :
    (lines (withReturns s)).map dropReturn = lines s := by
  obtain ⟨ls, t, hls, ht, rfl⟩ := exists_eq_terminate_append s
  obtain ⟨-, htreturn⟩ := returnFree_of_not_mem h
  rw [withReturns_append, withReturns_terminate hls, withReturns_of_not_mem ht,
    lines_terminate_append (feedFree_map_return hls) ht, lines_terminate_append hls ht,
    List.map_append, List.map_map]
  have hmap : ls.map (dropReturn ∘ (· ++ ['\r'])) = ls := by
    simp [Function.comp_def, dropReturn_append_return]
  rw [hmap, List.map_singleton, dropReturn_of_not_mem htreturn]

theorem length_lines_withReturns (h : '\r' ∉ s) :
    (lines (withReturns s)).length = (lines s).length := by
  rw [← map_dropReturn_lines_withReturns h, List.length_map]

theorem countP_lines_withReturns (hp : LineTest p) (h : '\r' ∉ s) :
    (lines (withReturns s)).countP p = (lines s).countP p := by
  have hsame : p ∘ dropReturn = p := funext hp.dropReturn
  rw [← map_dropReturn_lines_withReturns h, List.countP_map, hsame]

/-- The segments of both texts are the same but for their line breaks. -/
theorem map_dropBreak_segments_withReturns (h : '\r' ∉ s) :
    (segments (withReturns s)).map dropBreak = (segments s).map dropBreak := by
  obtain ⟨ls, t, hls, ht, rfl⟩ := exists_eq_terminate_append s
  obtain ⟨hreturns, -⟩ := returnFree_of_not_mem h
  have hclosed : ((ls.map (· ++ ['\r'])).map (· ++ ['\n'])).map dropBreak =
      (ls.map (· ++ ['\n'])).map dropBreak := by
    rw [List.map_map, List.map_map, List.map_map]
    refine List.map_congr_left fun line hline => ?_
    simp only [Function.comp_apply, dropBreak_append_feed, dropReturn_append_return,
      dropReturn_of_not_mem (hreturns line hline)]
  rw [withReturns_append, withReturns_terminate hls, withReturns_of_not_mem ht,
    segments_terminate_append (feedFree_map_return hls), segments_terminate_append hls,
    List.map_append, List.map_append, hclosed]

theorem dropFinalBreak_withReturns (h : FeedFree ls) (hreturns : ReturnFree ls) :
    dropFinalBreak (withReturns (terminate ls)) = withReturns (dropFinalBreak (terminate ls)) := by
  rw [withReturns_terminate h]
  induction ls using List.reverseRecOn with
  | nil => rfl
  | append_singleton ls line _ =>
    have hls : FeedFree ls := h.sublist (List.sublist_append_left _ _)
    have hline : '\n' ∉ line := h line (by simp)
    have hreturn : '\r' ∉ line := hreturns line (by simp)
    rw [List.map_append, List.map_singleton, dropFinalBreak_terminate_concat,
      dropFinalBreak_terminate_concat, dropReturn_append_return, dropReturn_of_not_mem hreturn,
      withReturns_append, withReturns_terminate hls, withReturns_of_not_mem hline]

/-- A removal takes the same lines from both texts. -/
theorem removeLines_withReturns (hp : LineTest p) (h : '\r' ∉ s) :
    removeLines p (withReturns s) = withReturns (removeLines p s) := by
  obtain ⟨ls, t, hls, ht, rfl⟩ := exists_eq_terminate_append s
  obtain ⟨hreturns, -⟩ := returnFree_of_not_mem h
  have hkept : FeedFree (ls.filter (!p ·)) := hls.sublist List.filter_sublist
  have hfilter : (ls.map (· ++ ['\r'])).filter (!p ·) =
      (ls.filter (!p ·)).map (· ++ ['\r']) := by
    have hsame : (fun line => !p (line ++ ['\r'])) = fun line => !p line := by
      funext line
      rw [hp.append_breaks line ['\r'] (by simp [isBreak])]
    rw [List.filter_map]
    exact congrArg (fun q => (ls.filter q).map (· ++ ['\r'])) hsame
  rw [withReturns_append, withReturns_terminate hls, withReturns_of_not_mem ht,
    removeLines_terminate_append hp (feedFree_map_return hls) ht,
    removeLines_terminate_append hp hls ht, hfilter, ← withReturns_terminate hkept]
  split
  · exact dropFinalBreak_withReturns hkept (hreturns.sublist List.filter_sublist)
  · rw [withReturns_append, withReturns_of_not_mem ht]

theorem allBlank_withReturns (h : allBlank s = true) : allBlank (withReturns s) = true := by
  refine allBlank_iff.2 fun c hc => ?_
  obtain ⟨d, hd, hcd⟩ := List.mem_flatMap.1 hc
  by_cases hfeed : d = '\n'
  · rw [if_pos hfeed] at hcd
    rcases (by simpa using hcd : c = '\r' ∨ c = '\n') with rfl | rfl <;> decide
  · rw [if_neg hfeed, List.mem_singleton] at hcd
    exact hcd ▸ allBlank_iff.1 h d hd

theorem Trimmed.withReturns (h : Trimmed s) : Trimmed (withReturns s) := by
  have hblank : isBlank '\n' = true := by decide
  constructor
  · intro c hc
    cases s with
    | nil => simp at hc
    | cons d s =>
      have hd : isBlank d = false := h.head d rfl
      have hfeed : d ≠ '\n' := fun hfeed => by simp [hfeed, hblank] at hd
      rw [withReturns_cons, if_neg hfeed] at hc
      simpa [← Option.some.inj hc] using hd
  · intro c hc
    cases List.eq_nil_or_concat s with
    | inl hnil => simp [hnil] at hc
    | inr hconcat =>
      obtain ⟨s, d, rfl⟩ := hconcat
      have hd : isBlank d = false := h.last d (by simp)
      have hfeed : d ≠ '\n' := fun hfeed => by simp [hfeed, hblank] at hd
      rw [List.concat_eq_append, withReturns_append, withReturns_cons, if_neg hfeed] at hc
      simp only [withReturns_nil, List.append_nil, List.getLast?_concat] at hc
      simpa [← Option.some.inj hc] using hd

/-- Carriage returns and line feeds are both trimmed away. -/
theorem trim_withReturns (s : Text) : trim (withReturns s) = withReturns (trim s) := by
  obtain ⟨w, w', hw, hw', hs⟩ := exists_append_trim s
  conv_lhs => rw [hs, withReturns_append, withReturns_append]
  exact trim_of_trimmed (allBlank_withReturns hw) (allBlank_withReturns hw')
    (trimmed_trim s).withReturns

theorem mem_of_mem_lines {c : Char} (h : line ∈ lines s) (hc : c ∈ line) : c ∈ s := by
  obtain ⟨ls, t, hls, ht, rfl⟩ := exists_eq_terminate_append s
  rw [lines_terminate_append hls ht, List.mem_append, List.mem_singleton] at h
  rw [List.mem_append]
  cases h with
  | inl hline => exact .inl (List.mem_flatMap.2 ⟨line, hline, List.mem_append_left _ hc⟩)
  | inr hlast => exact .inr (hlast ▸ hc)

theorem LineAt.withReturns (h : LineAt s before line rest) :
    LineAt (withReturns s) (before.map (· ++ ['\r']))
      (if rest = [] then line else line ++ ['\r'])
      (if rest = [] then [] else '\n' :: withReturns rest.tail) := by
  constructor
  · rw [h.text_eq, withReturns_append, withReturns_append, withReturns_terminate h.before_free,
      withReturns_of_not_mem h.line_free]
    obtain rfl | ⟨after, rfl⟩ := h.rest_start
    · simp
    · simp [withReturns_cons]
  · exact feedFree_map_return h.before_free
  · split
    · exact h.line_free
    · simp [h.line_free]
  · split
    · exact .inl rfl
    · exact .inr ⟨_, rfl⟩

theorem any_isBreak_withReturns (s : Text) : (withReturns s).any isBreak = s.any isBreak := by
  induction s with
  | nil => rfl
  | cons c s ih =>
    rw [withReturns_cons, List.any_append, ih, List.any_cons]
    by_cases hc : c = '\n'
    · rw [if_pos hc, hc]
      rfl
    · rw [if_neg hc]
      simp

end Text

open Text

variable {s : Text}

theorem LineBreak.ofText_of_not_mem (h : '\r' ∉ s) : LineBreak.ofText s = .lf := by
  rw [ofText]
  split
  · rename_i first hfirst
    refine if_neg fun hcrlf => h ?_
    exact mem_of_mem_lines (List.mem_of_head? hfirst) (List.mem_of_getLast? hcrlf.2)
  · rfl

theorem LineBreak.ofText_withReturns (h : '\n' ∈ s) : LineBreak.ofText (withReturns s) = .crlf := by
  obtain ⟨before, line, rest, hline, hl⟩ :=
    exists_lineAt (s := s) (Document.lineCount_pos (Document.ofText s))
  obtain rfl := List.length_eq_zero_iff.1 hl
  have hrest : rest ≠ [] := by
    rintro rfl
    rw [hline.text_eq] at h
    exact hline.line_free (by simpa using h)
  obtain ⟨after, hlines⟩ := hline.withReturns.lines_eq
  have htext := hline.withReturns.text_eq
  simp only [hrest, if_false, List.map_nil, terminate_nil, List.nil_append] at hlines htext
  have hne : line ++ ['\r'] ≠ withReturns s := by
    rw [htext]
    simp
  rw [ofText, hlines, List.head?_cons]
  exact if_pos ⟨hne, List.getLast?_concat⟩

namespace Document

variable {target : Target} {context : InsertionContext}

theorem lineCount_withReturns (h : '\r' ∉ s) :
    (ofText (withReturns s)).lineCount = (ofText s).lineCount :=
  length_lines_withReturns h

/-- A position has the same text before it in both documents. -/
theorem take_indexAt_withReturns (h : '\r' ∉ s) (p : Position) :
    (withReturns s).take ((ofText (withReturns s)).indexAt p) =
      withReturns (s.take ((ofText s).indexAt p)) := by
  cases Nat.lt_or_ge p.line (ofText s).lineCount with
  | inl hp =>
    obtain ⟨before, line, rest, hline, hl⟩ := exists_lineAt (s := s) hp
    have hreturn : '\r' ∉ line := by
      rw [hline.text_eq] at h
      simp_all
    have hlength : p.line = (before.map (· ++ ['\r'])).length := by rw [List.length_map, hl]
    have hcontent : dropReturn (if rest = [] then line else line ++ ['\r']) = line := by
      split
      · exact dropReturn_of_not_mem hreturn
      · exact dropReturn_append_return line
    have hfree : '\n' ∉ line.take p.column :=
      fun hmem => hline.line_free (List.take_subset _ _ hmem)
    have htake := take_indexAt (d := ofText s) hline hl.symm
    have htake' := take_indexAt (d := ofText (withReturns s)) hline.withReturns hlength
    rw [text_ofText] at htake htake'
    rw [htake, htake', hcontent, dropReturn_of_not_mem hreturn, withReturns_append,
      withReturns_terminate hline.before_free, withReturns_of_not_mem hfree]
  | inr hp =>
    have hp' : (ofText (withReturns s)).lineCount ≤ p.line := by rwa [lineCount_withReturns h]
    rw [indexAt_of_lineCount_le hp, indexAt_of_lineCount_le hp', text_ofText, text_ofText,
      List.take_length, List.take_length]

/-- What a range covers in the one document it covers in the other, line breaks apart. -/
theorem textIn_withReturns (h : '\r' ∉ s) (r : Range) :
    (ofText (withReturns s)).textIn r = withReturns ((ofText s).textIn r) := by
  -- What comes before the first end is the same text in both documents, and so is what comes before
  -- the second.
  have hordered : ∀ p q : Position, p ≤ q →
      (ofText (withReturns s)).textIn ⟨p, q⟩ = withReturns ((ofText s).textIn ⟨p, q⟩) := by
    intro p q hpq
    have htext := take_append_textIn (d := ofText s) hpq
    have htext' := take_append_textIn (d := ofText (withReturns s)) hpq
    rw [text_ofText] at htext htext'
    rw [take_indexAt_withReturns h, take_indexAt_withReturns h, ← htext, withReturns_append]
      at htext'
    exact List.append_cancel_left htext'
  cases Position.le_total r.start r.stop with
  | inl hle => exact hordered _ _ hle
  | inr hle =>
    rw [textIn_comm, hordered _ _ hle, textIn_comm]

/-- A target selects the same expression, unless it selects several lines of both documents. -/
theorem selected_withReturns (h : '\r' ∉ s) (target : Target) :
    target.selected (ofText (withReturns s)) = target.selected (ofText s) ∨
      (target.selected (ofText (withReturns s))).any isBreak = true ∧
        (target.selected (ofText s)).any isBreak = true := by
  cases target with
  | expression line text => exact .inl rfl
  | selection range =>
    have hselected : (Target.selection range).selected (ofText (withReturns s)) =
        withReturns ((Target.selection range).selected (ofText s)) := by
      rw [Target.selected, textIn_withReturns h, trim_withReturns]
      rfl
    rw [hselected, any_isBreak_withReturns]
    by_cases hbreak : ((Target.selection range).selected (ofText s)).any isBreak = true
    · exact .inr ⟨hbreak, hbreak⟩
    · refine .inl (withReturns_of_not_mem fun hfeed => hbreak ?_)
      exact List.any_eq_true.2 ⟨'\n', hfeed, rfl⟩

theorem planInsertion_withReturns (h : '\r' ∉ s) (target : Target) (context : InsertionContext) :
    (ofText (withReturns s)).planInsertion target context =
      (ofText s).planInsertion target context := by
  have hcount := lineCount_withReturns h
  cases Nat.lt_or_ge target.cursor.line (ofText s).lineCount with
  | inl hlt =>
    rw [planInsertion_of_lt (hcount.symm ▸ hlt), planInsertion_of_lt hlt]
    obtain hsame | ⟨hbreak', hbreak⟩ := selected_withReturns h target
    · rw [hsame]
    · have hne {d : Document} (hd : (target.selected d).any isBreak = true) :
          target.selected d ≠ [] := fun hnil => by simp [hnil] at hd
      rw [if_neg (hne hbreak'), if_neg (hne hbreak), if_pos hbreak', if_pos hbreak]
  | inr hle => rw [planInsertion_of_le (hcount.symm ▸ hle), planInsertion_of_le hle, hcount]

/-- An inserted line is ended as the lines of the document are. -/
theorem insertLine_withReturns (h : '\r' ∉ s) (hfeed : '\n' ∈ s) (l : Nat) {content : Text}
    (hcontent : '\n' ∉ content) :
    ((ofText (withReturns s)).insertLine l content).text =
      withReturns ((ofText s).insertLine l content).text := by
  have hlf : (ofText s).lineBreak.lead = [] := by
    rw [ofText, LineBreak.ofText_of_not_mem h]
    rfl
  have hcrlf : (ofText (withReturns s)).lineBreak.lead = ['\r'] := by
    rw [ofText, LineBreak.ofText_withReturns hfeed]
    rfl
  obtain ⟨ls, t, hls, ht, hs⟩ := exists_eq_terminate_append s
  have hs' : withReturns s = terminate (ls.map (· ++ ['\r'])) ++ t := by
    rw [hs, withReturns_append, withReturns_terminate hls, withReturns_of_not_mem ht]
  rw [text_insertLine (d := ofText s) hs hls ht,
    text_insertLine (d := ofText (withReturns s)) hs' (feedFree_map_return hls) ht, hlf, hcrlf,
    List.length_map]
  split
  · have hms : FeedFree (ls.take l ++ content :: ls.drop l) := hls.inserted hcontent l
    rw [List.append_nil, withReturns_append, withReturns_terminate hms, withReturns_of_not_mem ht,
      List.map_append, List.map_cons, List.map_take, List.map_drop]
  · have hms : FeedFree (ls ++ [t]) := hls.append (feedFree_singleton ht)
    rw [List.append_nil, withReturns_append, withReturns_terminate hms,
      withReturns_of_not_mem hcontent, List.map_append, List.map_singleton]

theorem statementLines_withReturns (h : '\r' ∉ s) (tag : Tag) :
    (ofText (withReturns s)).statementLines tag = (ofText s).statementLines tag := by
  rw [statementLines, statementLines, text_ofText, text_ofText,
    map_dropBreak_segments_withReturns h]

end Document

namespace Removal

theorem ofText_withReturns (h : '\r' ∉ s) (tag : Tag) :
    ofText tag (withReturns s) =
      { ofText tag s with text := withReturns (ofText tag s).text } := by
  have htext : (ofText tag (withReturns s)).text = withReturns (ofText tag s).text :=
    removeLines_withReturns (lineTest_isLine tag) h
  have hremoved : (ofText tag (withReturns s)).removed = (ofText tag s).removed := by
    rw [removed_ofText, removed_ofText, countP_lines_withReturns (lineTest_isLine tag) h]
  have hchanged : (ofText tag (withReturns s)).changed = (ofText tag s).changed := by
    rw [Bool.eq_iff_iff, changed_ofText_iff, changed_ofText_iff, hremoved]
  calc ofText tag (withReturns s)
      = ⟨(ofText tag (withReturns s)).text, (ofText tag (withReturns s)).changed,
          (ofText tag (withReturns s)).removed⟩ := rfl
    _ = { ofText tag s with text := withReturns (ofText tag s).text } := by
      rw [htext, hchanged, hremoved]

end Removal

/-- Documents whose lines end with line feeds alone and documents whose lines end with carriage
returns too are treated alike: the same insertions are planned for both and fail for the same
reasons, and lines that are inserted or removed leave texts that differ in their carriage returns
only. -/
theorem Document.alike_withReturns (s : Text) (h : '\r' ∉ s) (hfeed : '\n' ∈ s) :
    let d := ofText s
    let d' := ofText (withReturns s)
    (∀ target context, d'.planInsertion target context = d.planInsertion target context) ∧
      (∀ l content, '\n' ∉ content →
        (d'.insertLine l content).text = withReturns (d.insertLine l content).text) ∧
      ∀ tag,
        Removal.ofText tag d'.text =
            { Removal.ofText tag d.text with
              text := withReturns (Removal.ofText tag d.text).text } ∧
          d'.statementLines tag = d.statementLines tag := by
  intro d d'
  refine ⟨planInsertion_withReturns h, fun l content hcontent => ?_, fun tag => ⟨?_, ?_⟩⟩
  · exact insertLine_withReturns h hfeed l hcontent
  · exact Removal.ofText_withReturns h tag
  · exact statementLines_withReturns h tag

/-- A selection up to the end of a line and a statement appended to an unterminated text. -/
theorem Document.alike_withReturns_unterminated :
    let s := "let a\nb".toList
    let d' := ofText (withReturns s)
    let target : Target := .selection ⟨⟨0, 4⟩, ⟨0, 99⟩⟩
    let context : InsertionContext := ⟨[], "Repo".toList, "a/b.js".toList, Tag.standard⟩
    let entry := entryFor target context ['a']
    '\r' ∉ s ∧ '\n' ∈ s ∧ '\n' ∉ entry.text ∧
      d'.planInsertion target context = .ok (['a'], entry) ∧
      (d'.insertLine 2 entry.text).text = "let a\r\nb\r\n".toList ++ entry.text ∧
      Removal.ofText Tag.standard (d'.insertLine 2 entry.text).text = ⟨d'.text, true, 1⟩ := by
  intro s d' target context entry
  have hreturn : '\r' ∉ s := by decide
  have hfeed : '\n' ∈ s := by decide
  have hcontent : '\n' ∉ entry.text := by decide +kernel
  obtain ⟨hplan, hinsert, -⟩ := alike_withReturns s hreturn hfeed
  have hplanned : (ofText s).planInsertion target context = .ok (['a'], entry) := by decide +kernel
  have hinserted : (d'.insertLine 2 entry.text).text = "let a\r\nb\r\n".toList ++ entry.text := by
    rw [hinsert 2 entry.text hcontent]
    decide +kernel
  refine ⟨hreturn, hfeed, hcontent, (hplan target context).trans hplanned, hinserted, ?_⟩
  rw [hinserted]
  decide +kernel

end Logmark
