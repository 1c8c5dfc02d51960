import Mathlib.Data.List.DropRight
import Logmark.Proofs.Cutting
import Logmark.Statement.FileLabel

/-!
The short name of a file, said of the runs in its path. A segment is a run of characters that are
no slashes, with a slash or an end of the path on either side of it; the short name holds the last
two segments. So it is its own short name, and neither the slashes behind a path nor what stands
above its last two segments matter to it.
-/
namespace Logmark

open Text

/-- A segment of a path, with the text before it and the text after it. -/
structure SegmentAt (path before segment after : Text) : Prop where
  path_eq : path = before ++ segment ++ after
  ne_nil : segment ≠ []
  no_slash : ∀ c ∈ segment, isSlash c = false
  opened : ∀ c ∈ before.getLast?, isSlash c = true
  closed : ∀ c ∈ after.head?, isSlash c = true

/-- The segments of a path from left to right, each with the text before it. -/
structure SegmentsInOrder (path : Text) (placed : List (Text × Text)) : Prop where
  ordered : placed.Pairwise fun p q => p.1.length < q.1.length
  mem_iff : ∀ before segment,
    (before, segment) ∈ placed ↔ ∃ after, SegmentAt path before segment after

variable {path before segment after x y s t rest : Text} {c : Char} {placed : List (Text × Text)}

/-- Before the first slash, a text can be cut in one place only. -/
theorem eq_of_append_eq_of_no_slash (hx : ∀ c ∈ x, isSlash c = false)
    (hy : ∀ c ∈ y, isSlash c = false) (hs : ∀ c ∈ s.head?, isSlash c = true)
    (ht : ∀ c ∈ t.head?, isSlash c = true) (h : x ++ s = y ++ t) : x = y ∧ s = t := by
  have hrun : ∀ {a b : Text}, (∀ c ∈ a, isSlash c = false) → (∀ c ∈ b.head?, isSlash c = true) →
      (a ++ b).takeWhile (!isSlash ·) = a := by
    intro a b ha hb
    rw [List.takeWhile_append_of_pos (by simpa using ha)]
    cases b with
    | nil => simp
    | cons d b => rw [List.takeWhile_cons_of_neg (by simpa using hb), List.append_nil]
  have hsame : x = y := by rw [← hrun hx hs, h, hrun hy ht]
  exact ⟨hsame, List.append_cancel_left (hsame ▸ h)⟩

/-- A segment with no slash before it starts the path. -/
theorem SegmentAt.before_eq_nil (h : SegmentAt path before segment after)
    (hbefore : ∀ c ∈ before, isSlash c = false) : before = [] := by
  cases List.eq_nil_or_concat before with
  | inl hnil => exact hnil
  | inr hconcat =>
    obtain ⟨init, c, rfl⟩ := hconcat
    have hslash := h.opened c (by simp)
    rw [hbefore c (by simp)] at hslash
    contradiction

theorem segmentAt_iff_of_no_slash (h : ∀ c ∈ path, isSlash c = false) :
    SegmentAt path before segment after ↔
      before = [] ∧ segment = path ∧ after = [] ∧ path ≠ [] := by
  constructor
  · intro hseg
    have hbefore : before = [] := hseg.before_eq_nil fun c hc => h c (by simp [hseg.path_eq, hc])
    have hpath := hseg.path_eq
    rw [hbefore, List.nil_append] at hpath
    obtain ⟨rfl, rfl⟩ := eq_of_append_eq_of_no_slash hseg.no_slash h hseg.closed (t := [])
      (by simp) (by rw [← hpath, List.append_nil])
    exact ⟨hbefore, rfl, rfl, hseg.ne_nil⟩
  · rintro ⟨rfl, rfl, rfl, hne⟩
    exact ⟨by simp, hne, h, by simp, by simp⟩

/-- The first slash of a path ends the first segment, if there is one before it, and the other
segments come after it. -/
theorem segmentAt_append_cons_iff (hx : ∀ c ∈ x, isSlash c = false) (hc : isSlash c = true) :
    SegmentAt (x ++ c :: rest) before segment after ↔
      before = [] ∧ segment = x ∧ after = c :: rest ∧ x ≠ [] ∨
        ∃ before', before = x ++ c :: before' ∧ SegmentAt rest before' segment after := by
  have hslash : ∀ {d : Char} {r : Text}, isSlash d = true →
      ∀ e ∈ (d :: r).head?, isSlash e = true := by simp
  constructor
  · intro h
    have hpath := h.path_eq
    rcases exists_first_sep isSlash before with hbefore | ⟨x', c', before', rfl, hx', hc'⟩
    · have hnil := h.before_eq_nil hbefore
      rw [hnil, List.nil_append] at hpath
      obtain ⟨rfl, rfl⟩ := eq_of_append_eq_of_no_slash hx h.no_slash (hslash hc) h.closed hpath
      exact .inl ⟨hnil, rfl, rfl, h.ne_nil⟩
    · rw [List.append_assoc, List.append_assoc] at hpath
      obtain ⟨rfl, hrest⟩ := eq_of_append_eq_of_no_slash hx hx' (hslash hc) (hslash hc') hpath
      obtain ⟨rfl, rfl⟩ := List.cons.inj hrest
      refine .inr ⟨before', rfl, by simp, h.ne_nil, h.no_slash, fun d hd => ?_, h.closed⟩
      exact h.opened d (by simp [List.getLast?_cons, Option.mem_def.1 hd])
  · rintro (⟨rfl, rfl, rfl, hne⟩ | ⟨before', rfl, h⟩)
    · exact ⟨by simp, hne, hx, by simp, hslash hc⟩
    · refine ⟨by simp [h.path_eq], h.ne_nil, h.no_slash, fun d hd => ?_, h.closed⟩
      cases List.eq_nil_or_concat before' with
      | inl hnil => simp_all
      | inr hconcat =>
        obtain ⟨init, e, rfl⟩ := hconcat
        exact h.opened d (by simpa [List.getLast?_cons] using hd)

theorem pathSegments_of_no_slash (h : ∀ c ∈ path, isSlash c = false) :
    pathSegments path = [path].filter (· ≠ []) := by
  rw [pathSegments, pieces_of_forall_not h]

/-- A slash divides the segments of a path. -/
theorem pathSegments_append (hc : isSlash c = true) (x y : Text) :
    pathSegments (x ++ c :: y) = pathSegments x ++ pathSegments y := by
  rw [pathSegments, pieces_append hc, List.filter_append]
  rfl

theorem mem_pathSegments (h : segment ∈ pathSegments path) :
    segment ≠ [] ∧ ∀ c ∈ segment, isSlash c = false := by
  obtain ⟨hmem, hne⟩ := List.mem_filter.1 h
  exact ⟨by simpa using hne, isSep_of_mem_pieces hmem⟩

/-- The segment that a path starts with, if `x` is the text before its first slash. -/
def firstSegment (x : Text) : List (Text × Text) := if x = [] then [] else [([], x)]

theorem mem_firstSegment :
    (before, segment) ∈ firstSegment x ↔ before = [] ∧ segment = x ∧ x ≠ [] := by
  by_cases hx : x = [] <;> simp [firstSegment, hx]

theorem map_snd_firstSegment (hx : ∀ c ∈ x, isSlash c = false) :
    (firstSegment x).map Prod.snd = pathSegments x := by
  rw [pathSegments_of_no_slash hx]
  by_cases hnil : x = [] <;> simp [firstSegment, hnil]

theorem segmentsInOrder_of_no_slash (h : ∀ c ∈ path, isSlash c = false) :
    SegmentsInOrder path (firstSegment path) := by
  constructor
  · rw [firstSegment]
    split <;> simp
  · intro before segment
    simp only [segmentAt_iff_of_no_slash h, mem_firstSegment]
    constructor
    · rintro ⟨hbefore, hsegment, hne⟩
      exact ⟨[], hbefore, hsegment, rfl, hne⟩
    · rintro ⟨after, hbefore, hsegment, -, hne⟩
      exact ⟨hbefore, hsegment, hne⟩

/-- Behind the first slash of a path come the segments of the rest. -/
theorem SegmentsInOrder.append_cons (h : SegmentsInOrder rest placed)
    (hx : ∀ c ∈ x, isSlash c = false) (hc : isSlash c = true) :
    SegmentsInOrder (x ++ c :: rest)
      (firstSegment x ++ placed.map fun p => (x ++ c :: p.1, p.2)) := by
  constructor
  · refine List.pairwise_append.2 ⟨(segmentsInOrder_of_no_slash hx).ordered, ?_, ?_⟩
    · exact List.pairwise_map.2 (h.ordered.imp fun hlt => by simpa using hlt)
    · rintro ⟨before, segment⟩ hfirst later hlater
      obtain ⟨p, -, rfl⟩ := List.mem_map.1 hlater
      simp only [(mem_firstSegment.1 hfirst).1, List.length_nil, List.length_append,
        List.length_cons]
      omega
  · intro before segment
    rw [List.mem_append, mem_firstSegment, List.mem_map]
    simp only [segmentAt_append_cons_iff hx hc]
    constructor
    · rintro (⟨hbefore, hsegment, hne⟩ | ⟨⟨before', segment'⟩, hmem, hsame⟩)
      · exact ⟨c :: rest, .inl ⟨hbefore, hsegment, rfl, hne⟩⟩
      · obtain ⟨rfl, rfl⟩ := Prod.mk.inj hsame
        obtain ⟨after, hafter⟩ := (h.mem_iff before' segment').1 hmem
        exact ⟨after, .inr ⟨before', rfl, hafter⟩⟩
    · rintro ⟨after, ⟨hbefore, hsegment, -, hne⟩ | ⟨before', rfl, hafter⟩⟩
      · exact .inl ⟨hbefore, hsegment, hne⟩
      · exact .inr ⟨(before', segment), (h.mem_iff before' segment).2 ⟨after, hafter⟩, rfl⟩

/-- The segments that the short name is made from are those of the path, in their order. -/
theorem exists_segmentsInOrder (path : Text) :
    ∃ placed, SegmentsInOrder path placed ∧ placed.map Prod.snd = pathSegments path := by
  induction hn : path.length using Nat.strong_induction_on generalizing path with
  | _ n ih =>
    rcases exists_first_sep isSlash path with hpath | ⟨x, c, rest, rfl, hx, hc⟩
    · exact ⟨firstSegment path, segmentsInOrder_of_no_slash hpath, map_snd_firstSegment hpath⟩
    · have hshorter : rest.length < n := by
        rw [← hn, List.length_append, List.length_cons]
        omega
      obtain ⟨placed, hplaced, hsegments⟩ := ih rest.length hshorter rest rfl
      refine ⟨_, hplaced.append_cons hx hc, ?_⟩
      rw [List.map_append, map_snd_firstSegment hx, List.map_map, pathSegments_append hc,
        ← hsegments]
      rfl

theorem pathSegments_append_slashes (h : ∀ c ∈ t, isSlash c = true) (path : Text) :
    pathSegments (path ++ t) = pathSegments path := by
  induction t generalizing path with
  | nil => rw [List.append_nil]
  | cons c t ih =>
    obtain ⟨hc, ht⟩ := List.forall_mem_cons.1 h
    have hrest : pathSegments t = [] := (ih ht []).trans rfl
    rw [pathSegments_append hc, hrest, List.append_nil]

/-- Segments joined by slashes are read back. -/
theorem pathSegments_intercalate {segments : List Text}
    (h : ∀ s ∈ segments, s ≠ [] ∧ ∀ c ∈ s, isSlash c = false) :
    pathSegments (['/'].intercalate segments) = segments := by
  induction segments with
  | nil => rfl
  | cons first segments ih =>
    obtain ⟨⟨hne, hfirst⟩, hmore⟩ := List.forall_mem_cons.1 h
    have hread : pathSegments first = [first] := by
      rw [pathSegments_of_no_slash hfirst]
      simp [hne]
    cases segments with
    | nil => rwa [List.intercalate_singleton]
    | cons second segments =>
      rw [List.intercalate_cons_cons, List.append_assoc, List.singleton_append,
        pathSegments_append rfl, hread, ih hmore]
      rfl

theorem fileLabel_eq (path : Text) :
    fileLabel path = ['/'].intercalate ((pathSegments path).rtake 2) := rfl

theorem pathSegments_fileLabel (path : Text) :
    pathSegments (fileLabel path) = (pathSegments path).rtake 2 :=
  pathSegments_intercalate fun _ h => mem_pathSegments (List.mem_of_mem_drop h)

theorem rtake_append_of_le {α : Type} {l m : List α} {n : Nat} (h : n ≤ m.length) :
    (l ++ m).rtake n = m.rtake n := by
  rw [List.rtake, List.length_append, Nat.add_sub_assoc h, List.drop_length_add_append, List.rtake]

/-- The short name of a file is the last two segments of its path, or as many as there are, joined
by a slash. It is its own short name, slashes behind a path do not change it, and if there are two
segments, what is put before them with a slash does not either. -/
theorem fileLabel_lastTwo (path : Text) :
    (∃ placed, SegmentsInOrder path placed ∧
      fileLabel path = ['/'].intercalate ((placed.map Prod.snd).rtake 2) ∧
      (2 ≤ placed.length → ∀ above c, isSlash c = true →
        fileLabel (above ++ [c] ++ path) = fileLabel path)) ∧
      (∀ slashes, (∀ c ∈ slashes, isSlash c = true) →
        fileLabel (path ++ slashes) = fileLabel path) ∧
      fileLabel (fileLabel path) = fileLabel path := by
  obtain ⟨placed, hplaced, hsegments⟩ := exists_segmentsInOrder path
  refine ⟨⟨placed, hplaced, ?_, fun htwo above c hc => ?_⟩, fun slashes hslashes => ?_, ?_⟩
  · rw [hsegments, fileLabel_eq]
  · have hlength : 2 ≤ (pathSegments path).length := by rwa [← hsegments, List.length_map]
    rw [fileLabel_eq, fileLabel_eq, List.append_assoc, List.singleton_append,
      pathSegments_append hc, rtake_append_of_le hlength]
  · rw [fileLabel_eq, fileLabel_eq, pathSegments_append_slashes hslashes]
  · have htwice : ((pathSegments path).rtake 2).rtake 2 = (pathSegments path).rtake 2 := by
      rw [List.rtake_eq_reverse_take_reverse, List.rtake_eq_reverse_take_reverse,
        List.reverse_reverse, List.take_take, Nat.min_self]
    rw [fileLabel_eq (fileLabel path), pathSegments_fileLabel, htwice, fileLabel_eq]

/-- A path with both slashes in it, below two directories and with slashes behind it. -/
theorem fileLabel_lastTwo_mixed :
    fileLabel ("C:/work".toList ++ ['\\'] ++ "src/app.ts".toList) = "src/app.ts".toList ∧
      fileLabel ("src/app.ts".toList ++ "\\/".toList) = "src/app.ts".toList := by
  obtain ⟨⟨placed, hplaced, -, habove⟩, hslashes, -⟩ := fileLabel_lastTwo "src/app.ts".toList
  have hsrc : ([], "src".toList) ∈ placed := (hplaced.mem_iff _ _).2
    ⟨"/app.ts".toList, rfl, by simp, by simp [isSlash], by simp, by simp [isSlash]⟩
  have happ : ("src/".toList, "app.ts".toList) ∈ placed := (hplaced.mem_iff _ _).2
    ⟨[], rfl, by simp, by simp [isSlash], by simp [isSlash], by simp⟩
  have htwo : 2 ≤ placed.length := by
    match placed, hsrc, happ with
    | [p], hsrc, happ =>
      rw [List.mem_singleton] at hsrc happ
      exact absurd (hsrc.trans happ.symm) (by simp)
    | _ :: _ :: _, _, _ => simp
  exact ⟨habove htwo _ '\\' rfl, hslashes _ (by simp [isSlash])⟩

end Logmark
