import Mathlib.Data.List.Basic
import Logmark.Proofs.Cutting
import Logmark.Text.Lines

/-!
Texts as lines. Every text is a list of lines, each with a line feed after it, and a last line
without one. The views of a text, its lines and its segments, and a cut before a line are read off
this form. The carriage return that may end a line is all that is dropped from it.
-/
namespace Logmark.Text

variable {s t u line : Text} {ls ms pieces : List Text}

/-- The lines, each with a line feed after it. -/
def terminate (ls : List Text) : Text := ls.flatMap (· ++ ['\n'])

@[simp] theorem terminate_nil : terminate [] = [] := rfl

@[simp] theorem terminate_cons (line : Text) (ls : List Text) :
    terminate (line :: ls) = line ++ '\n' :: terminate ls := by
  simp [terminate]

@[simp] theorem terminate_append (ls ms : List Text) :
    terminate (ls ++ ms) = terminate ls ++ terminate ms := List.flatMap_append

theorem terminate_eq_nil_iff : terminate ls = [] ↔ ls = [] := by
  cases ls <;> simp

/-- Lines with no line feed in them. -/
def FeedFree (ls : List Text) : Prop := ∀ line ∈ ls, '\n' ∉ line

theorem FeedFree.of_cons (h : FeedFree (line :: ls)) : '\n' ∉ line ∧ FeedFree ls :=
  List.forall_mem_cons.1 h

theorem FeedFree.sublist (h : FeedFree ls) (hms : ms.Sublist ls) : FeedFree ms :=
  fun line hline => h line (hms.subset hline)

theorem FeedFree.append (h : FeedFree ls) (h' : FeedFree ms) : FeedFree (ls ++ ms) :=
  List.forall_mem_append.2 ⟨h, h'⟩

theorem feedFree_singleton (h : '\n' ∉ line) : FeedFree [line] := by
  simpa [FeedFree] using h

/-- Every text is terminated lines and a last line. -/
theorem exists_eq_terminate_append (s : Text) :
    ∃ ls t, FeedFree ls ∧ '\n' ∉ t ∧ s = terminate ls ++ t := by
  induction s with
  | nil => exact ⟨[], [], by simp [FeedFree], by simp, rfl⟩
  | cons c s ih =>
    obtain ⟨ls, t, hls, ht, rfl⟩ := ih
    by_cases hc : c = '\n'
    · refine ⟨[] :: ls, t, List.forall_mem_cons.2 ⟨by simp, hls⟩, ht, ?_⟩
      rw [hc, terminate_cons, List.nil_append, List.cons_append]
    · cases ls with
      | nil => exact ⟨[], c :: t, hls, by simp [ht, Ne.symm hc], rfl⟩
      | cons line ls =>
        obtain ⟨hline, hls⟩ := hls.of_cons
        refine ⟨(c :: line) :: ls, t, List.forall_mem_cons.2 ⟨?_, hls⟩, ht, by simp⟩
        simp [hline, Ne.symm hc]

theorem segments_of_not_mem (h : '\n' ∉ t) : segments t = if t = [] then [] else [t] := by
  induction t with
  | nil => rfl
  | cons c t ih =>
    obtain ⟨hc, ht⟩ := List.ne_and_not_mem_of_not_mem_cons h
    rw [segments_cons, ih ht, if_neg (Ne.symm hc)]
    by_cases hnil : t = [] <;> simp [hnil]

theorem segments_line_append (h : '\n' ∉ line) (s : Text) :
    segments (line ++ '\n' :: s) = (line ++ ['\n']) :: segments s := by
  induction line with
  | nil => simp [segments_cons]
  | cons c line ih =>
    obtain ⟨hc, hline⟩ := List.ne_and_not_mem_of_not_mem_cons h
    rw [List.cons_append, segments_cons, ih hline, if_neg (Ne.symm hc)]
    rfl

theorem segments_terminate_append (h : FeedFree ls) (s : Text) :
    segments (terminate ls ++ s) = ls.map (· ++ ['\n']) ++ segments s := by
  induction ls with
  | nil => rfl
  | cons line ls ih =>
    obtain ⟨hline, hls⟩ := h.of_cons
    rw [terminate_cons, List.append_assoc, List.cons_append, segments_line_append hline, ih hls]
    rfl

/-- A text cut after each line feed: nothing is lost, no piece is empty, and a line feed ends every
piece but the last and stands nowhere else. -/
structure CutAfterFeeds (s : Text) (pieces : List Text) : Prop where
  flatten_eq : pieces.flatten = s
  ne_nil : [] ∉ pieces
  ended : ∀ piece ∈ pieces.dropLast, piece.getLast? = some '\n'
  no_feed : ∀ piece ∈ pieces, '\n' ∉ piece.dropLast

theorem cutAfterFeeds_segments (s : Text) : CutAfterFeeds s (segments s) := by
  obtain ⟨ls, t, hls, ht, rfl⟩ := exists_eq_terminate_append s
  have hflatten := flatten_segments (terminate ls ++ t)
  have hended : ∀ piece ∈ ls.map (· ++ ['\n']), piece.getLast? = some '\n' := by simp
  have hfree : ∀ piece ∈ ls.map (· ++ ['\n']), '\n' ∉ piece.dropLast := by
    simpa [FeedFree] using hls
  rw [segments_terminate_append hls, segments_of_not_mem ht] at hflatten ⊢
  by_cases hnil : t = []
  · rw [if_pos hnil, List.append_nil] at hflatten ⊢
    refine ⟨hflatten, by simp, fun piece hpiece => ?_, hfree⟩
    exact hended piece (List.dropLast_subset _ hpiece)
  · rw [if_neg hnil] at hflatten ⊢
    refine ⟨hflatten, by simp [Ne.symm hnil], by rwa [List.dropLast_concat], ?_⟩
    refine List.forall_mem_append.2 ⟨hfree, List.forall_mem_singleton.2 fun hmem => ?_⟩
    exact ht (List.dropLast_subset t hmem)

/-- The pieces between which a text is cut are found again. -/
theorem CutAfterFeeds.segments_eq (h : CutAfterFeeds s pieces) : segments s = pieces := by
  induction pieces generalizing s with
  | nil => rw [← h.flatten_eq]; rfl
  | cons piece pieces ih =>
    have hnil : piece ≠ [] ∧ [] ∉ pieces := by simpa [eq_comm] using h.ne_nil
    obtain ⟨line, c, rfl⟩ := (List.eq_nil_or_concat piece).resolve_left hnil.1
    have hfree : '\n' ∉ line ∧ ∀ piece ∈ pieces, '\n' ∉ piece.dropLast := by simpa using h.no_feed
    have hrest : CutAfterFeeds pieces.flatten pieces := by
      refine ⟨rfl, hnil.2, fun piece hpiece => h.ended piece ?_, hfree.2⟩
      rw [List.dropLast_cons_of_ne_nil (List.ne_nil_of_mem (List.dropLast_subset _ hpiece))]
      exact List.mem_cons_of_mem _ hpiece
    rw [← h.flatten_eq, List.flatten_cons, List.concat_eq_append, List.append_assoc]
    by_cases hc : c = '\n'
    · rw [hc, List.singleton_append, segments_line_append hfree.1, ih hrest]
    · -- Only the last piece may end with something else.
      have hlast : pieces = [] := by
        by_contra hne
        have := h.ended (line ++ [c]) (by simp [List.dropLast_cons_of_ne_nil hne])
        simp [hc] at this
      rw [hlast, segments_of_not_mem (by simp [hfree.1, Ne.symm hc])]
      simp

theorem cutAfterFeeds_iff : CutAfterFeeds s pieces ↔ pieces = segments s :=
  ⟨fun h => h.segments_eq.symm, fun h => h ▸ cutAfterFeeds_segments s⟩

theorem lines_of_not_mem (h : '\n' ∉ t) : lines t = [t] :=
  pieces_of_forall_not fun _ hc => beq_false_of_ne (ne_of_mem_of_not_mem hc h)

theorem lines_line_append (h : '\n' ∉ line) (s : Text) :
    lines (line ++ '\n' :: s) = line :: lines s :=
  pieces_append_cons (fun _ hc => beq_false_of_ne (ne_of_mem_of_not_mem hc h)) rfl s

/-- The lines of a text in its normal form. -/
theorem lines_terminate_append (h : FeedFree ls) (ht : '\n' ∉ t) :
    lines (terminate ls ++ t) = ls ++ [t] := by
  induction ls with
  | nil => exact lines_of_not_mem ht
  | cons line ls ih =>
    obtain ⟨hline, hls⟩ := h.of_cons
    rw [terminate_cons, List.append_assoc, List.cons_append, lines_line_append hline, ih hls]
    rfl

theorem intercalate_append_singleton (ls : List Text) (t : Text) :
    ['\n'].intercalate (ls ++ [t]) = terminate ls ++ t := by
  induction ls with
  | nil => simp
  | cons line ls ih =>
    rw [List.cons_append, List.intercalate_cons_of_ne_nil (by simp), ih]
    simp

/-- A cut before a line divides the lines, and there is one before the last line too. -/
theorem cutAtLine?_terminate_append (h : FeedFree ls) (ht : '\n' ∉ t) (l : Nat) :
    cutAtLine? l (terminate ls ++ t) =
      if l ≤ ls.length then some (terminate (ls.take l), terminate (ls.drop l) ++ t) else none := by
  rw [cutAtLine?, lines_terminate_append h ht, List.length_append, List.length_singleton]
  by_cases hl : l ≤ ls.length
  · rw [if_pos (Nat.lt_succ_of_le hl), if_pos hl, List.take_append_of_le_length hl,
      List.drop_append_of_le_length hl, intercalate_append_singleton]
    rfl
  · rw [if_neg (fun h => hl (Nat.le_of_lt_succ h)), if_neg hl]

/-- A text with lines but an empty last one ends with a line feed. -/
theorem getLast?_terminate (h : ls ≠ []) : (terminate ls).getLast? = some '\n' := by
  obtain ⟨ms, line, rfl⟩ := List.eq_nil_or_concat ls |>.resolve_left h
  rw [List.concat_eq_append, terminate_append, terminate_cons, terminate_nil]
  simp

/-- A text whose last character is no line feed has it on its last line. -/
theorem getLast?_of_terminate_append {c : Char} (hc : c ≠ '\n')
    (h : (terminate ls ++ t).getLast? = some c) : t.getLast? = some c := by
  by_cases hnil : t = []
  · rw [hnil, List.append_nil] at h
    by_cases hls : ls = []
    · simp [hls] at h
    · rw [getLast?_terminate hls] at h
      exact absurd (Option.some.inj h).symm hc
  · rwa [List.getLast?_append_of_ne_nil _ hnil] at h

theorem getLast?_ne_of_not_mem {c : Char} (h : c ∉ t) : t.getLast? ≠ some c :=
  fun hlast => h (List.mem_of_getLast? hlast)

/-- A text is empty or ends with a line feed exactly if its last line is empty. -/
theorem terminated_iff (ht : '\n' ∉ t) :
    terminate ls ++ t = [] ∨ (terminate ls ++ t).getLast? = some '\n' ↔ t = [] := by
  constructor
  · intro h
    by_contra hne
    rw [List.getLast?_append_of_ne_nil _ hne] at h
    cases h with
    | inl hnil => exact hne (List.append_eq_nil_iff.1 hnil).2
    | inr hlast => exact getLast?_ne_of_not_mem ht hlast
  · rintro rfl
    rw [List.append_nil]
    by_cases hls : ls = []
    · exact .inl (terminate_eq_nil_iff.2 hls)
    · exact .inr (getLast?_terminate hls)

theorem exists_append_dropReturn (line : Text) :
    ∃ breaks, (∀ c ∈ breaks, isBreak c = true) ∧ line = dropReturn line ++ breaks := by
  rw [dropReturn]
  split
  · rename_i h
    exact ⟨['\r'], by simp [isBreak], (List.dropLast_append_getLast? _ h).symm⟩
  · exact ⟨[], by simp, by simp⟩

theorem dropReturn_starts (line : Text) : dropReturn line <+: line := by
  obtain ⟨breaks, -, hline⟩ := exists_append_dropReturn line
  exact ⟨breaks, hline.symm⟩

theorem dropReturn_append (s : Text) (h : line ≠ []) :
    dropReturn (s ++ line) = s ++ dropReturn line := by
  rw [dropReturn, dropReturn, List.getLast?_append_of_ne_nil _ h, List.dropLast_append_of_ne_nil h]
  split <;> rfl

theorem dropReturn_append_return (line : Text) : dropReturn (line ++ ['\r']) = line := by
  simp [dropReturn]

theorem dropReturn_eq_self_iff : dropReturn line = line ↔ line.getLast? ≠ some '\r' := by
  rw [dropReturn]
  constructor
  · intro h hlast
    rw [if_pos hlast] at h
    have hlen := congrArg List.length h
    have hpos : 0 < line.length := List.length_pos_of_mem (List.mem_of_getLast? hlast)
    rw [List.length_dropLast] at hlen
    omega
  · exact fun h => if_neg h

theorem dropReturn_of_not_mem (h : '\r' ∉ line) : dropReturn line = line :=
  dropReturn_eq_self_iff.2 (getLast?_ne_of_not_mem h)

theorem not_mem_dropReturn (h : '\n' ∉ line) : '\n' ∉ dropReturn line :=
  fun hmem => h ((dropReturn_starts line).subset hmem)

end Logmark.Text
