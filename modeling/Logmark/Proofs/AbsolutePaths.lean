import Logmark.Proofs.Cutting
import Logmark.Proofs.Worlds

/-!
Rows of names written as absolute paths. Such a path has the names for its segments, so it leads to
what stands at the end of them, its last name is the last of them, and the directories that it lies
in are those of the shorter rows.
-/
namespace Logmark

namespace Path

/-- The names that the entries of a directory can have. -/
structure IsName (name : Text) : Prop where
  not_idle : isIdle name = false
  ne_up : name ≠ up
  no_slash : '/' ∉ name

variable {names directory : List Text} {name : Text}

theorem IsName.ne_nil (h : IsName name) : name ≠ [] := by
  rintro rfl
  exact absurd h.not_idle (by decide)

theorem ofSegments_of_ne_nil (hne : names ≠ []) :
    ofSegments [] names = names.flatMap ('/' :: ·) := by
  rw [ofSegments, if_neg (by simp [hne])]
  have hjoin : ∀ (first : Text) (names : List Text),
      ['/'].intercalate (first :: names) = first ++ names.flatMap ('/' :: ·) := by
    intro first names
    induction names generalizing first with
    | nil => simp
    | cons second names ih =>
      rw [List.intercalate_cons_cons, ih]
      simp
  exact hjoin [] names

theorem ofSegments_concat (directory : List Text) (name : Text) :
    ofSegments [] (directory ++ [name]) = directory.flatMap ('/' :: ·) ++ '/' :: name := by
  rw [ofSegments_of_ne_nil (by simp)]
  simp

theorem isAbsolute_ofSegments (names : List Text) : isAbsolute (ofSegments [] names) = true := by
  cases names with
  | nil => rfl
  | cons name names =>
    rw [ofSegments_of_ne_nil (List.cons_ne_nil _ _), isAbsolute]
    simp

theorem segments_ofSegments (h : ∀ name ∈ names, IsName name) (hne : names ≠ []) :
    segments (ofSegments [] names) = [] :: names := by
  have hfree : ∀ name ∈ [] :: names, '/' ∉ name :=
    List.forall_mem_cons.2 ⟨List.not_mem_nil, fun name hname => (h name hname).no_slash⟩
  rw [segments, Text.pieces_eq_splitOnP, ← List.splitOn_eq_splitOnP, ofSegments,
    if_neg (by simp [hne]), List.splitOn_intercalate _ hfree (List.cons_ne_nil _ _)]

/-- The path of an entry of a directory has one name more. -/
theorem entry_ofSegments (h : ∀ name ∈ directory, IsName name) (name : Text) :
    entry (ofSegments [] directory) name = ofSegments [] (directory ++ [name]) := by
  rw [ofSegments_concat]
  cases List.eq_nil_or_concat directory with
  | inl hnil =>
    rw [hnil]
    rfl
  | inr hconcat =>
    obtain ⟨above, last, rfl⟩ := hconcat
    rw [List.concat_eq_append] at h ⊢
    have hlast : IsName last := h last (by simp)
    have hend : (ofSegments [] (above ++ [last])).getLast? = last.getLast? := by
      rw [ofSegments_concat, List.append_cons, List.getLast?_append_of_ne_nil _ hlast.ne_nil]
    rw [entry, if_neg, ofSegments_of_ne_nil (by simp)]
    rintro (hnil | hslash)
    · rw [ofSegments_concat] at hnil
      simp at hnil
    · rw [hend] at hslash
      exact hlast.no_slash (List.mem_of_getLast? hslash)

theorem name?_ofSegments (h : ∀ name ∈ names, IsName name) :
    name? (ofSegments [] names) = names.getLast? := by
  cases List.eq_nil_or_concat names with
  | inl hnil =>
    rw [hnil]
    rfl
  | inr hconcat =>
    obtain ⟨above, last, rfl⟩ := hconcat
    rw [List.concat_eq_append] at h ⊢
    have hlast : IsName last := h last (by simp)
    rw [name?, segments_ofSegments h (by simp)]
    simp [hlast.not_idle, hlast.ne_up]

theorem ancestorsFrom_concat (h : ∀ n ∈ directory ++ [name], IsName n) :
    ancestorsFrom [] (directory ++ [name]).reverse =
      ofSegments [] directory :: ancestorsFrom [] directory.reverse := by
  have hkeep : directory.reverse.dropWhile isIdle = directory.reverse := by
    cases hrev : directory.reverse with
    | nil => rfl
    | cons last above =>
      have hlast : last ∈ directory := List.mem_reverse.1 (hrev ▸ List.mem_cons_self)
      exact List.dropWhile_cons_of_neg (by simp [(h last (List.mem_append_left _ hlast)).not_idle])
  rw [List.reverse_concat, ancestorsFrom, if_neg (by simp [(h name (by simp)).not_idle]), hkeep,
    List.reverse_reverse]

theorem parent?_ofSegments (h : ∀ n ∈ directory ++ [name], IsName n) :
    parent? (ofSegments [] (directory ++ [name])) = some (ofSegments [] directory) := by
  rw [parent?, ancestors, segments_ofSegments h (by simp)]
  dsimp only
  rw [ancestorsFrom_concat h, List.head?_cons]

/-- A path lies in the directories of the shorter rows of names, the longest of them first. -/
theorem ancestors_ofSegments (h : ∀ n ∈ directory ++ [name], IsName n) :
    ancestors (ofSegments [] (directory ++ [name])) =
      directory.inits.reverse.map (ofSegments []) := by
  rw [ancestors, segments_ofSegments h (by simp)]
  dsimp only
  induction directory using List.reverseRecOn generalizing name with
  | nil => exact ancestorsFrom_concat h
  | append_singleton directory last ih =>
    have habove : ∀ n ∈ directory ++ [last], IsName n := fun n hn => h n (List.mem_append_left _ hn)
    rw [ancestorsFrom_concat h, ih habove]
    simp [List.inits_append]

end Path

namespace Tree

theorem get?_append (tree : Tree) (names more : List Text) :
    tree.get? (names ++ more) = (tree.get? names).bind (·.get? more) := by
  induction names generalizing tree with
  | nil => rfl
  | cons name names ih =>
    rw [List.cons_append, get?, get?]
    cases tree.entry? name with
    | none => rfl
    | some sub => exact ih sub

/-- Something stands at each shorter row of names. -/
theorem isSome_get?_of_starts {tree : Tree} {names longer : List Text} (h : names <+: longer)
    (hthere : (tree.get? longer).isSome = true) : (tree.get? names).isSome = true := by
  obtain ⟨more, rfl⟩ := h
  rw [get?_append] at hthere
  exact Option.isSome_of_isSome_bind hthere

end Tree

namespace World

open Logmark.Tree

variable {w w' : World} {path segment : Text} {names next start : List Text}

/-- Going on by names leads to what stands at the end of them, if anything does. -/
theorem bind_foldlM_step? (h : ∀ name ∈ names, Path.IsName name) (w : World) (start : List Text) :
    (names.foldlM w.step? start).bind w.root.get? = w.root.get? (start ++ names) := by
  induction names generalizing start with
  | nil => rw [List.append_nil]; rfl
  | cons name names ih =>
    obtain ⟨hname, hnames⟩ := List.forall_mem_cons.1 h
    rw [List.foldlM_cons, List.append_cons]
    cases hthere : w.root.get? (start ++ [name]) with
    | some tree =>
      have hsome : (w.root.node? (start ++ [name])).isSome = true := by
        rw [← isSome_get?_iff, hthere]
        rfl
      have hstep : w.step? start name = some (start ++ [name]) := step?_eq_some_iff.2
        (.down (node?_of_append hsome) hname.not_idle hname.ne_up hsome)
      rw [hstep]
      exact ih hnames (start ++ [name])
    | none =>
      have hstep : w.step? start name = none := by
        rw [step?, hname.not_idle, if_neg hname.ne_up, hthere]
        simp
      rw [hstep, get?_append, hthere]
      rfl

/-- The path of a row of names leads to what stands at the end of it. -/
theorem find?_ofSegments (h : ∀ name ∈ names, Path.IsName name) (hne : names ≠ []) (w : World) :
    w.find? (Path.ofSegments [] names) = w.root.get? names := by
  have hpath : Path.ofSegments [] names ≠ [] := by
    obtain ⟨name, names, rfl⟩ := List.exists_cons_of_ne_nil hne
    rw [Path.ofSegments_of_ne_nil hne]
    simp
  rw [find?, resolve?, if_neg hpath, Path.segments_ofSegments h hne, origin,
    if_pos (Path.isAbsolute_ofSegments names), List.foldlM_cons]
  by_cases hroot : w.isDirectoryAt [] = true
  · have hstep : w.step? [] [] = some [] :=
      step?_eq_some_iff.2 (.idle (isDirectoryAt_iff.1 hroot) rfl)
    rw [hstep]
    exact bind_foldlM_step? h w []
  · have hstep : w.step? [] [] = none := by rw [step?, if_pos hroot]
    rw [hstep]
    obtain ⟨name, names, rfl⟩ := List.exists_cons_of_ne_nil hne
    refine (Option.not_isSome_iff_eq_none.1 fun hthere => hroot ?_).symm
    rw [isSome_get?_iff, ← List.nil_append (name :: names)] at hthere
    exact isDirectoryAt_iff.2 (node?_of_append hthere)

/-- The names that a segment leads to from a directory, if it leads anywhere. -/
def follow (names : List Text) (segment : Text) : List Text :=
  if Path.isIdle segment then names
  else if segment = Path.up then names.dropLast
  else names ++ [segment]

theorem Steps.eq_follow (h : w.Steps names segment next) : next = follow names segment := by
  cases h with
  | idle _ hidle => rw [follow, if_pos hidle]
  | up => rfl
  | down _ hidle hup => rw [follow, hidle, if_neg Bool.false_ne_true, if_neg hup]

theorem foldlM_step?_eq_foldl {segments : List Text}
    (h : segments.foldlM w.step? start = some names) : names = segments.foldl follow start := by
  induction segments generalizing start with
  | nil => exact (Option.some.inj h).symm
  | cons segment segments ih =>
    rw [List.foldlM_cons] at h
    obtain ⟨next, hstep, hmore⟩ := Option.bind_eq_some_iff.1 h
    rw [List.foldl_cons, ← (step?_eq_some_iff.1 hstep).eq_follow]
    exact ih hmore

/-- Where a path leads to can be read off the path and the working directory. -/
theorem resolve?_eq_foldl (h : w.resolve? path = some names) :
    names = (Path.segments path).foldl follow (w.origin path) := by
  rw [resolve?] at h
  split at h
  · contradiction
  · exact foldlM_step?_eq_foldl h

/-- A path that leads somewhere in two worlds with one working directory leads to one place. -/
theorem resolve?_unique (hcurrent : w'.current = w.current) (h : w.resolve? path = some names)
    (h' : w'.resolve? path = some next) : next = names := by
  rw [resolve?_eq_foldl h, resolve?_eq_foldl h', origin_eq_of_current hcurrent]

/-- A path leads to names, if the working directory has a row of names. -/
theorem isName_of_resolve? (hcurrent : ∀ name ∈ w.current, Path.IsName name)
    (h : w.resolve? path = some names) : ∀ name ∈ names, Path.IsName name := by
  rw [resolve?_eq_foldl h]
  refine List.foldlRecOn (motive := fun names => ∀ name ∈ names, Path.IsName name) _ _ ?_ ?_
  · rw [origin]
    split
    · exact List.forall_mem_nil _
    · exact hcurrent
  · intro names hnames segment hsegment
    rw [follow]
    split
    · exact hnames
    split
    · exact fun name hname => hnames name (List.dropLast_subset _ hname)
    · rename_i hidle hup
      have hslash : '/' ∉ segment := fun hmem =>
        absurd (Text.isSep_of_mem_pieces hsegment '/' hmem) (by decide)
      exact List.forall_mem_append.2 ⟨hnames,
        List.forall_mem_singleton.2 ⟨Bool.eq_false_iff.2 hidle, hup, hslash⟩⟩

end World
end Logmark
