import Mathlib.Data.List.ProdSigma
import Logmark.Proofs.LineRemoval

/-!
The lines that pass a test, as a listing shows them, and what a removal does to them. A removal by
one test leaves of another test's lines those that it does not remove itself, in their order and
with their texts: the line break that a removed last line takes with it is not shown in a listing.
Main statement: the statements that are listed are those that are deleted, and all other text is
kept.
-/
namespace Logmark

namespace Text

variable {p q : Text → Bool} {s t line : Text} {ls : List Text}

/-- The lines that pass a test, without their line breaks. -/
def passing (p : Text → Bool) (s : Text) : List Text := ((segments s).filter p).map dropBreak

theorem dropBreak_append_feed (line : Text) : dropBreak (line ++ ['\n']) = dropReturn line := by
  simp [dropBreak]

theorem dropBreak_of_not_mem (h : '\n' ∉ t) : dropBreak t = t :=
  if_neg (getLast?_ne_of_not_mem h)

/-- What is dropped of a segment is a line break at its end. -/
theorem exists_append_dropBreak (segment : Text) :
    ∃ breaks, (∀ c ∈ breaks, isBreak c = true) ∧ segment = dropBreak segment ++ breaks := by
  rw [dropBreak]
  split
  · rename_i hfeed
    obtain ⟨breaks, hbreaks, hline⟩ := exists_append_dropReturn segment.dropLast
    refine ⟨breaks ++ ['\n'], List.forall_mem_append.2 ⟨hbreaks, by simp [isBreak]⟩, ?_⟩
    rw [← List.append_assoc, ← hline, List.dropLast_append_getLast? _ hfeed]
  · exact ⟨[], by simp, by simp⟩

theorem LineTest.dropBreak (hp : LineTest p) (segment : Text) :
    p (dropBreak segment) = p segment := by
  obtain ⟨breaks, hbreaks, hsegment⟩ := exists_append_dropBreak segment
  conv_rhs => rw [hsegment, hp.append_breaks _ _ hbreaks]

theorem trim_dropBreak (segment : Text) : trim (dropBreak segment) = trim segment := by
  obtain ⟨breaks, hbreaks, hsegment⟩ := exists_append_dropBreak segment
  have hblank : allBlank breaks = true :=
    allBlank_iff.2 fun c hc => isBlank_of_isBreak (hbreaks c hc)
  conv_rhs => rw [hsegment, trim_append_of_allBlank hblank]

/-- A test passed by the lines that pass one test and not another. -/
theorem LineTest.without (hp : LineTest p) (hq : LineTest q) :
    LineTest fun line => p line && !q line where
  nil := by rw [hp.nil, Bool.false_and]
  append_breaks line breaks h := by
    rw [hp.append_breaks line breaks h, hq.append_breaks line breaks h]

theorem passing_terminate_append (hp : LineTest p) (h : FeedFree ls) (ht : '\n' ∉ t) :
    passing p (terminate ls ++ t) = (ls.filter p).map dropReturn ++ [t].filter p := by
  have hclosed :
      ((ls.filter p).map (· ++ ['\n'])).map dropBreak = (ls.filter p).map dropReturn := by
    rw [List.map_map]
    exact List.map_congr_left fun line _ => dropBreak_append_feed line
  rw [passing, segments_terminate_append h, segments_of_not_mem ht, List.filter_append,
    filter_feeds hp.append_feed, List.map_append, hclosed]
  by_cases hnil : t = []
  · simp [hnil, hp.nil]
  · cases hpt : p t <;> simp [hnil, hpt, dropBreak_of_not_mem ht]

/-- A line whose line break is dropped is listed as before. -/
theorem passing_dropFinalBreak (hp : LineTest p) (h : FeedFree ls) :
    passing p (dropFinalBreak (terminate ls)) = (ls.filter p).map dropReturn := by
  induction ls using List.reverseRecOn with
  | nil => rfl
  | append_singleton ls line _ =>
    have hls : FeedFree ls := h.sublist (List.sublist_append_left _ _)
    have hline : '\n' ∉ line := h line (by simp)
    rw [dropFinalBreak_terminate_concat,
      passing_terminate_append hp hls (not_mem_dropReturn hline), List.filter_append,
      List.map_append]
    cases hpl : p line <;> simp [hp.dropReturn, hpl]

/-- A removal leaves of the lines that pass a test those that it does not remove itself. -/
theorem passing_removeLines (hp : LineTest p) (hq : LineTest q) (s : Text) :
    passing p (removeLines q s) = passing (fun line => p line && !q line) s := by
  obtain ⟨ls, t, hls, ht, rfl⟩ := exists_eq_terminate_append s
  have hkept : FeedFree (ls.filter (!q ·)) := hls.sublist List.filter_sublist
  rw [removeLines_terminate_append hq hls ht, passing_terminate_append (hp.without hq) hls ht,
    ← List.filter_filter]
  cases hqt : q t with
  | true =>
    rw [if_pos rfl, passing_dropFinalBreak hp hkept]
    simp [hqt]
  | false =>
    rw [if_neg (by decide), passing_terminate_append hp hkept ht]
    simp [List.filter_cons, hqt]

theorem length_passing (hp : LineTest p) (s : Text) :
    (passing p s).length = (lines s).countP p := by
  rw [passing, List.length_map, ← List.countP_eq_length_filter, countP_segments hp]

theorem passing_eq_nil_iff (hp : LineTest p) :
    passing p s = [] ↔ ∀ line ∈ lines s, p line = false := by
  rw [← List.length_eq_zero_iff, length_passing hp, List.countP_eq_zero]
  simp

/-- A removal is complete: no line is left that passes its test. -/
theorem passing_removeLines_self (hp : LineTest p) (s : Text) :
    passing p (removeLines p s) = [] := by
  rw [passing_removeLines hp hp, passing]
  simp

/-- A removal by a test of other lines changes nothing about the lines that are listed. -/
theorem passing_removeLines_of_disjoint (hp : LineTest p) (hq : LineTest q)
    (hpq : ∀ line, p line = true → q line = false) (s : Text) :
    passing p (removeLines q s) = passing p s := by
  have hsame : (fun line => p line && !q line) = p := by
    funext line
    cases hpl : p line with
    | true => simp [hpq line hpl]
    | false => rfl
  rw [passing_removeLines hp hq, hsame]

/-- A removal changes a text exactly if it has a line to remove, since none is left afterwards. -/
theorem removeLines_eq_self_iff (hp : LineTest p) : removeLines p s = s ↔ passing p s = [] := by
  constructor
  · intro h
    rw [← h]
    exact passing_removeLines_self hp s
  · exact fun h => removeLines_of_none hp ((passing_eq_nil_iff hp).1 h)

/-- What is left of a text without one line break at its end: a line feed and the carriage return
before it, or a line feed alone. A text that does not end with a line feed has none to lose. -/
inductive DropsFinalBreak : Text → Text → Prop where
  | crlf (s : Text) : DropsFinalBreak (s ++ ['\r', '\n']) s
  | lf {s : Text} : s.getLast? ≠ some '\r' → DropsFinalBreak (s ++ ['\n']) s
  | unterminated {s : Text} : s.getLast? ≠ some '\n' → DropsFinalBreak s s

theorem dropsFinalBreak_dropFinalBreak (s : Text) : DropsFinalBreak s (dropFinalBreak s) := by
  rw [dropFinalBreak]
  split
  · rename_i hfeed
    have hs : s.dropLast ++ ['\n'] = s := List.dropLast_append_getLast? _ hfeed
    rw [dropReturn]
    split
    · rename_i hreturn
      have hs' : s.dropLast.dropLast ++ ['\r'] = s.dropLast :=
        List.dropLast_append_getLast? _ hreturn
      have hbreak : s.dropLast.dropLast ++ ['\r', '\n'] = s := by
        rw [← hs, ← hs']
        simp
      have hdrops := DropsFinalBreak.crlf s.dropLast.dropLast
      rwa [hbreak] at hdrops
    · rename_i hreturn
      have hdrops := DropsFinalBreak.lf hreturn
      rwa [hs] at hdrops
  · rename_i hfeed
    exact .unterminated hfeed

/-- Whether a segment without a line feed passes is decided by the last segment. -/
theorem any_open_iff (hp : LineTest p) (s : Text) :
    ((segments s).any fun segment => segment.getLast? != some '\n' && p segment) = true ↔
      ∃ last, (segments s).getLast? = some last ∧ p last = true ∧ '\n' ∉ last := by
  obtain ⟨ls, t, hls, ht, rfl⟩ := exists_eq_terminate_append s
  rw [any_open_terminate_append hp hls ht, segments_terminate_append hls, segments_of_not_mem ht]
  by_cases hnil : t = []
  · rw [hnil, hp.nil]
    simp only [if_true, List.append_nil, List.getLast?_map]
    constructor
    · intro h
      contradiction
    · rintro ⟨last, hlast, -, hfeed⟩
      obtain ⟨line, -, rfl⟩ := Option.map_eq_some_iff.1 hlast
      simp at hfeed
  · simp [hnil, ht]

end Text

namespace Document

open Text

/-- The statements of a tag are listed with the numbers of their segments. -/
theorem statementLines_eq (d : Document) (tag : Tag) :
    d.statementLines tag =
      ((segments d.text).zipIdx.filter fun x => Statement.isLine tag x.1).map
        fun x => (x.2, dropBreak x.1) := by
  have hline : ∀ segment, Statement.isLine tag (dropBreak segment) = Statement.isLine tag segment :=
    (Removal.lineTest_isLine tag).dropBreak
  rw [statementLines, List.zipIdx_map, List.filterMap_map, ← List.filterMap_eq_map,
    List.filterMap_filter]
  congr 1
  funext x
  simp [hline]

/-- The texts that are listed are the lines that pass the test of the tag. -/
theorem texts_statementLines (d : Document) (tag : Tag) :
    (d.statementLines tag).map Prod.snd = passing (Statement.isLine tag) d.text := by
  have hfilter : ((segments d.text).zipIdx.filter fun x => Statement.isLine tag x.1).map Prod.fst =
      (segments d.text).filter (Statement.isLine tag) := by
    conv_rhs => rw [← List.zipIdx_map_fst 0 (segments d.text), List.filter_map]
    rfl
  rw [statementLines_eq, passing, ← hfilter, List.map_map, List.map_map]
  rfl

/-- A listing of the statements of a tag: the segments of a text that are statements, each with its
number, in the order of the text. -/
structure ListsStatements (tag : Tag) (s : Text) (listed : List (Nat × Text)) : Prop where
  ordered : (listed.map Prod.fst).Pairwise (· < ·)
  mem_iff : ∀ l segment, (l, segment) ∈ listed ↔
    (segments s)[l]? = some segment ∧ Statement.isLine tag segment = true

/-- The lines that are listed are the segments of such a listing without their line breaks. -/
theorem exists_listsStatements (d : Document) (tag : Tag) :
    ∃ listed, ListsStatements tag d.text listed ∧
      d.statementLines tag = listed.map (Prod.map id dropBreak) := by
  let found := (segments d.text).zipIdx.filter fun x => Statement.isLine tag x.1
  refine ⟨found.map Prod.swap, ⟨?_, fun l segment => ?_⟩, ?_⟩
  · have hsublist : ((found.map Prod.swap).map Prod.fst).Sublist
        ((segments d.text).zipIdx.map Prod.snd) := by
      rw [List.map_map]
      exact List.filter_sublist.map Prod.snd
    rw [List.zipIdx_map_snd] at hsublist
    exact List.Pairwise.sublist hsublist List.pairwise_lt_range'
  · rw [List.mem_map_swap, List.mem_filter, List.mem_zipIdx_iff_getElem?]
  · rw [statementLines_eq, List.map_map]
    rfl

/-- The numbers that are listed stand in increasing order. -/
theorem pairwise_numbers_statementLines (d : Document) (tag : Tag) :
    ((d.statementLines tag).map Prod.fst).Pairwise (· < ·) := by
  obtain ⟨listed, hlisted, hlines⟩ := exists_listsStatements d tag
  rw [hlines, List.map_map]
  exact hlisted.ordered

theorem mem_numbers_statementLines {d : Document} {tag : Tag} {i : Nat} :
    i ∈ (d.statementLines tag).map Prod.fst ↔
      ∃ segment, (segments d.text)[i]? = some segment ∧ Statement.isLine tag segment = true := by
  obtain ⟨listed, hlisted, hlines⟩ := exists_listsStatements d tag
  rw [hlines, List.map_map]
  constructor
  · intro hi
    obtain ⟨⟨l, segment⟩, hmem, rfl⟩ := List.mem_map.1 hi
    exact ⟨segment, (hlisted.mem_iff l segment).1 hmem⟩
  · rintro ⟨segment, hsegment⟩
    exact List.mem_map.2 ⟨(i, segment), (hlisted.mem_iff i segment).2 hsegment, rfl⟩

theorem length_statementLines (d : Document) (tag : Tag) :
    (d.statementLines tag).length = (lines d.text).countP (Statement.isLine tag) := by
  rw [← length_passing (Removal.lineTest_isLine tag), ← texts_statementLines, List.length_map]

end Document

namespace Removal

open Text

theorem changed_ofText_iff (tag : Tag) (s : Text) :
    (ofText tag s).changed = true ↔ 0 < (ofText tag s).removed := by
  have htest := lineTest_isLine tag
  calc (ofText tag s).changed = true
      ↔ ¬ (ofText tag s).text = s := decide_eq_true_iff
    _ ↔ ¬ (passing (Statement.isLine tag) s).length = 0 := by
      rw [text_ofText, removeLines_eq_self_iff htest, List.length_eq_zero_iff]
    _ ↔ 0 < (ofText tag s).removed := by
      rw [removed_ofText, length_passing htest, Nat.pos_iff_ne_zero]

/-- Deletion and listing agree. The segments are what a text is when it is cut after each line feed.
The numbers that are listed are those of the segments that are statements, in increasing order; as
many are deleted, and all other segments are kept as they are. Only where the last segment is a
statement without a line feed do they lose a line break at their end. One pass over the segments
finds this, and the text is reported as changed exactly if something was deleted. -/
theorem ofText_deletes_statementLines (tag : Tag) (s : Text) :
    let segments := Text.segments s
    let numbers := ((Document.ofText s).statementLines tag).map Prod.fst
    let kept := (segments.filter (!Statement.isLine tag ·)).flatten
    let openEnd := ∃ last, segments.getLast? = some last ∧ Statement.isLine tag last = true ∧
      '\n' ∉ last
    let removal := ofText tag s
    (∀ pieces, CutAfterFeeds s pieces ↔ pieces = segments) ∧
      numbers.Pairwise (· < ·) ∧
      (∀ i, i ∈ numbers ↔
        ∃ segment, segments[i]? = some segment ∧ Statement.isLine tag segment = true) ∧
      removal.removed = numbers.length ∧
      (openEnd ∧ DropsFinalBreak kept removal.text ∨ ¬ openEnd ∧ removal.text = kept) ∧
      segments.foldl (passStep (Statement.isLine tag)) ([], 0) = (removal.text, removal.removed) ∧
      (removal.changed = true ↔ 0 < removal.removed) := by
  intro segments numbers kept openEnd removal
  have htest := lineTest_isLine tag
  have hopen := any_open_iff htest s
  refine ⟨fun _ => cutAfterFeeds_iff, Document.pairwise_numbers_statementLines _ tag,
    fun i => Document.mem_numbers_statementLines, ?_, ?_, foldl_passStep_segments htest s,
    changed_ofText_iff tag s⟩
  · rw [List.length_map, Document.length_statementLines]
    exact removed_ofText tag s
  · by_cases hend : openEnd
    · have htext : removal.text = dropFinalBreak kept := if_pos (hopen.2 hend)
      rw [htext]
      exact .inl ⟨hend, dropsFinalBreak_dropFinalBreak kept⟩
    · exact .inr ⟨hend, if_neg fun hany => hend (hopen.1 hany)⟩

end Removal
end Logmark
