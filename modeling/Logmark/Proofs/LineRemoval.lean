import Logmark.Proofs.Decoding
import Logmark.Proofs.Segments
import Logmark.Removal

/-!
Removing the lines that pass a test. For terminated lines this is filtering. The line break that a
removed last line takes with it makes the difference: it turns the line before into the last one.
Still, removing by one test and then by another is removing by both at once, and a removal is one
pass over the segments, which looks at no line twice.
-/
namespace Logmark

namespace Text

variable {p q : Text → Bool} {s t line : Text} {ls : List Text}

/-- A test of lines that does not see line breaks and that the empty line does not pass. -/
structure LineTest (p : Text → Bool) : Prop where
  nil : p [] = false
  append_breaks : ∀ line breaks : Text, (∀ c ∈ breaks, isBreak c = true) →
    p (line ++ breaks) = p line

theorem LineTest.or (hp : LineTest p) (hq : LineTest q) :
    LineTest fun line => p line || q line where
  nil := by rw [hp.nil, hq.nil, Bool.or_self]
  append_breaks line breaks h := by
    rw [hp.append_breaks line breaks h, hq.append_breaks line breaks h]

theorem LineTest.none : LineTest fun _ => false := ⟨rfl, fun _ _ _ => rfl⟩

theorem LineTest.append_feed (hp : LineTest p) (line : Text) : p (line ++ ['\n']) = p line :=
  hp.append_breaks line ['\n'] (by simp [isBreak])

theorem LineTest.dropReturn (hp : LineTest p) (line : Text) : p (dropReturn line) = p line := by
  obtain ⟨breaks, hbreaks, hline⟩ := exists_append_dropReturn line
  conv_rhs => rw [hline]
  exact (hp.append_breaks _ _ hbreaks).symm

/-- A text without the lines that pass `p`; a removed last line takes the line break before it. -/
def removeLines (p : Text → Bool) (s : Text) : Text :=
  let kept := ((segments s).filter (!p ·)).flatten
  if (segments s).any fun segment => segment.getLast? != some '\n' && p segment then
    dropFinalBreak kept
  else kept

theorem filter_feeds (h : ∀ line, p (line ++ ['\n']) = p line) (ls : List Text) :
    (ls.map (· ++ ['\n'])).filter p = (ls.filter p).map (· ++ ['\n']) := by
  rw [List.filter_map]
  congr 2
  funext line
  exact h line

/-- Only the last segment can be without a line feed, so the last line decides whether one that
passes is. -/
theorem any_open_terminate_append (hp : LineTest p) (h : FeedFree ls) (ht : '\n' ∉ t) :
    ((segments (terminate ls ++ t)).any fun segment =>
      segment.getLast? != some '\n' && p segment) = p t := by
  have hclosed : (ls.map (· ++ ['\n'])).any
      (fun segment => segment.getLast? != some '\n' && p segment) = false := by
    simp
  rw [segments_terminate_append h, segments_of_not_mem ht, List.any_append, hclosed, Bool.false_or]
  by_cases hnil : t = []
  · simp [hnil, hp.nil]
  · have hlast : (t.getLast? != some '\n') = true := by
      simpa using getLast?_ne_of_not_mem ht
    simp [hnil, hlast]

/-- On the normal form of a text the lines are filtered, and the last line decides whether a line
break is dropped. -/
theorem removeLines_terminate_append (hp : LineTest p) (h : FeedFree ls) (ht : '\n' ∉ t) :
    removeLines p (terminate ls ++ t) =
      if p t = true then dropFinalBreak (terminate (ls.filter (!p ·)))
      else terminate (ls.filter (!p ·)) ++ t := by
  have hfilter : (ls.map (· ++ ['\n'])).filter (!p ·) = (ls.filter (!p ·)).map (· ++ ['\n']) :=
    filter_feeds (fun line => by rw [hp.append_feed line]) ls
  have hkept : ((ls.filter (!p ·)).map (· ++ ['\n'])).flatten = terminate (ls.filter (!p ·)) :=
    List.flatMap_def.symm
  rw [removeLines, any_open_terminate_append hp h ht, segments_terminate_append h,
    segments_of_not_mem ht, List.filter_append, List.flatten_append, hfilter, hkept]
  by_cases hnil : t = []
  · simp [hnil, hp.nil]
  · cases hpt : p t <;> simp [hnil, hpt]

/-- The line before a dropped line break becomes the last one. -/
theorem dropFinalBreak_terminate_concat (ls : List Text) (line : Text) :
    dropFinalBreak (terminate (ls ++ [line])) = terminate ls ++ dropReturn line := by
  have hlast : (terminate (ls ++ [line])).getLast? = some '\n' := getLast?_terminate (by simp)
  have hinit : (terminate (ls ++ [line])).dropLast = terminate ls ++ line := by
    rw [terminate_append, terminate_cons, terminate_nil, ← List.append_assoc]
    exact List.dropLast_concat
  rw [dropFinalBreak, if_pos hlast, hinit]
  by_cases hnil : line = []
  · have hnone : (terminate ls).getLast? ≠ some '\r' := by
      intro hlast
      rw [← List.append_nil (terminate ls)] at hlast
      exact absurd (getLast?_of_terminate_append (by decide) hlast) (by simp)
    rw [hnil, List.append_nil, dropReturn, if_neg hnone]
    exact (List.append_nil _).symm
  · exact dropReturn_append _ hnil

/-- Dropping the last line break before lines are removed is the same as dropping it afterwards. If
the line that it ends is removed, it takes the break before it; if not, it is still the last. -/
theorem removeLines_dropFinalBreak (hp : LineTest p) (h : FeedFree ls) :
    removeLines p (dropFinalBreak (terminate ls)) =
      dropFinalBreak (terminate (ls.filter (!p ·))) := by
  induction ls using List.reverseRecOn with
  | nil => rfl
  | append_singleton ls line _ =>
    have hls : FeedFree ls := h.sublist (List.sublist_append_left _ _)
    have hline : '\n' ∉ line := h line (by simp)
    rw [dropFinalBreak_terminate_concat,
      removeLines_terminate_append hp hls (not_mem_dropReturn hline), hp.dropReturn,
      List.filter_append]
    cases hpl : p line with
    | true => simp [hpl]
    | false =>
      have hkeep : [line].filter (!p ·) = [line] := by simp [hpl]
      rw [hkeep, dropFinalBreak_terminate_concat]
      rfl

/-- A terminated line that passes the test leaves nothing. -/
theorem removeLines_within {ms : List Text} (hp : LineTest p) (hpass : p line = true)
    (hline : '\n' ∉ line) (hls : FeedFree ls) (hms : FeedFree ms) (ht : '\n' ∉ t) :
    removeLines p (terminate (ls ++ line :: ms) ++ t) =
      removeLines p (terminate (ls ++ ms) ++ t) := by
  have hall : FeedFree (ls ++ line :: ms) := hls.append (List.forall_mem_cons.2 ⟨hline, hms⟩)
  have hfilter : (ls ++ line :: ms).filter (!p ·) = (ls ++ ms).filter (!p ·) := by
    simp [List.filter_append, hpass]
  rw [removeLines_terminate_append hp hall ht, removeLines_terminate_append hp (hls.append hms) ht,
    hfilter]

/-- A last line that passes the test leaves the line before it without a line break. -/
theorem removeLines_last {breaks : Text} (hp : LineTest p) (hpass : p line = true)
    (hline : '\n' ∉ line) (hls : FeedFree ls) (ht : '\n' ∉ t) (hfeed : '\n' ∉ breaks)
    (hbreaks : ∀ c ∈ breaks, isBreak c = true) :
    removeLines p (terminate (ls ++ [t ++ breaks]) ++ line) =
      if p t = true then dropFinalBreak (terminate (ls.filter (!p ·)))
      else terminate (ls.filter (!p ·)) ++ dropReturn (t ++ breaks) := by
  have hall : FeedFree (ls ++ [t ++ breaks]) :=
    hls.append (feedFree_singleton (by simp [ht, hfeed]))
  rw [removeLines_terminate_append hp hall hline, if_pos hpass, List.filter_append]
  cases hpt : p t with
  | true =>
    have hdrop : [t ++ breaks].filter (!p ·) = [] := by
      simp [hp.append_breaks t breaks hbreaks, hpt]
    rw [hdrop, List.append_nil, if_pos rfl]
  | false =>
    have hkeep : [t ++ breaks].filter (!p ·) = [t ++ breaks] := by
      simp [hp.append_breaks t breaks hbreaks, hpt]
    rw [hkeep, dropFinalBreak_terminate_concat]
    rfl

/-- Removing twice is removing the lines that pass either test. -/
theorem removeLines_removeLines (hp : LineTest p) (hq : LineTest q) (s : Text) :
    removeLines p (removeLines q s) = removeLines (fun line => q line || p line) s := by
  obtain ⟨ls, t, hls, ht, rfl⟩ := exists_eq_terminate_append s
  have hkept : FeedFree (ls.filter (!q ·)) := hls.sublist List.filter_sublist
  have hboth : (ls.filter (!q ·)).filter (!p ·) = ls.filter (fun line => !(q line || p line)) := by
    rw [List.filter_filter]
    congr 1
    funext line
    rw [Bool.not_or, Bool.and_comm]
  rw [removeLines_terminate_append hq hls ht, removeLines_terminate_append (hq.or hp) hls ht,
    ← hboth]
  cases hqt : q t with
  | true => exact removeLines_dropFinalBreak hp hkept
  | false =>
    rw [if_neg (by decide), removeLines_terminate_append hp hkept ht, Bool.false_or]

theorem removeLines_of_none (hp : LineTest p) (h : ∀ line ∈ lines s, p line = false) :
    removeLines p s = s := by
  obtain ⟨ls, t, hls, ht, rfl⟩ := exists_eq_terminate_append s
  rw [lines_terminate_append hls ht] at h
  have hall : ls.filter (!p ·) = ls :=
    List.filter_eq_self.2 fun line hline => by simp [h line (by simp [hline])]
  rw [removeLines_terminate_append hp hls ht, hall, h t (by simp)]
  rfl

/-- As many segments pass a test as lines do; the empty last line is no segment. -/
theorem countP_segments (hp : LineTest p) (s : Text) :
    (segments s).countP p = (lines s).countP p := by
  obtain ⟨ls, t, hls, ht, rfl⟩ := exists_eq_terminate_append s
  have hmap : (ls.map (· ++ ['\n'])).countP p = ls.countP p := by
    rw [List.countP_eq_length_filter, filter_feeds hp.append_feed, List.length_map,
      ← List.countP_eq_length_filter]
  rw [segments_terminate_append hls, lines_terminate_append hls ht, segments_of_not_mem ht,
    List.countP_append, List.countP_append, hmap]
  by_cases hnil : t = []
  · simp [hnil, hp.nil]
  · rw [if_neg hnil]

/-- One step of a pass over the segments, from the text kept and the lines left out so far. A line
that is left out and has no line break takes the one before it. -/
def passStep (p : Text → Bool) (seen : Text × Nat) (segment : Text) : Text × Nat :=
  if p segment = true then
    (if segment.getLast? = some '\n' then seen.1 else dropFinalBreak seen.1, seen.2 + 1)
  else (seen.1 ++ segment, seen.2)

/-- A step over a terminated line keeps the line or counts it. -/
theorem passStep_append_feed (hp : LineTest p) (seen : Text × Nat) (line : Text) :
    passStep p seen (line ++ ['\n']) =
      (seen.1 ++ terminate ([line].filter (!p ·)), seen.2 + [line].countP p) := by
  rw [passStep, hp.append_feed]
  cases hpl : p line <;> simp [hpl]

/-- A step over a last line without a line break. -/
theorem passStep_of_not_mem (ht : '\n' ∉ t) (seen : Text × Nat) :
    passStep p seen t =
      (if p t = true then dropFinalBreak seen.1 else seen.1 ++ t, seen.2 + [t].countP p) := by
  rw [passStep, if_neg (getLast?_ne_of_not_mem ht)]
  cases hpt : p t <;> simp [hpt]

theorem foldl_passStep_feeds (hp : LineTest p) (ls : List Text) (seen : Text × Nat) :
    (ls.map (· ++ ['\n'])).foldl (passStep p) seen =
      (seen.1 ++ terminate (ls.filter (!p ·)), seen.2 + ls.countP p) := by
  induction ls generalizing seen with
  | nil => simp
  | cons line ls ih =>
    rw [List.map_cons, List.foldl_cons, ih, passStep_append_feed hp]
    have hkept : (line :: ls).filter (!p ·) = [line].filter (!p ·) ++ ls.filter (!p ·) :=
      List.filter_append [line] ls
    have hcount : (line :: ls).countP p = [line].countP p + ls.countP p := by
      rw [← List.countP_append, List.singleton_append]
    rw [hkept, hcount, terminate_append, List.append_assoc, Nat.add_assoc]

/-- A removal is one pass over the segments. -/
theorem foldl_passStep_segments (hp : LineTest p) (s : Text) :
    (segments s).foldl (passStep p) ([], 0) = (removeLines p s, (segments s).countP p) := by
  obtain ⟨ls, t, hls, ht, rfl⟩ := exists_eq_terminate_append s
  rw [countP_segments hp, lines_terminate_append hls ht, removeLines_terminate_append hp hls ht,
    segments_terminate_append hls, segments_of_not_mem ht, List.foldl_append,
    foldl_passStep_feeds hp, List.countP_append, List.nil_append, Nat.zero_add]
  by_cases hnil : t = []
  · simp [hnil, hp.nil]
  · rw [if_neg hnil, List.foldl_cons, List.foldl_nil, passStep_of_not_mem ht]

end Text

namespace Removal

variable {tag : Tag} {s : Text}

/-- Whether a line is a statement of a tag is a test of lines. -/
theorem lineTest_isLine (tag : Tag) : Text.LineTest (Statement.isLine tag) where
  nil := Statement.isLine_nil tag
  append_breaks _ _ h := Statement.isLine_append_breaks h

theorem text_ofText (tag : Tag) (s : Text) :
    (ofText tag s).text = Text.removeLines (Statement.isLine tag) s := rfl

theorem removed_ofText (tag : Tag) (s : Text) :
    (ofText tag s).removed = (Text.lines s).countP (Statement.isLine tag) :=
  Text.countP_segments (lineTest_isLine tag) s

end Removal
end Logmark
