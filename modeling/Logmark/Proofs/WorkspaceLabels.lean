import Mathlib.Data.List.Infix
import Logmark.Proofs.AbsolutePaths
import Logmark.Proofs.Asking
import Logmark.Workspace

/-!
The label of a workspace in a tree of files. Of the directories above a file that have a name and
hold an entry `.git`, the nearest gives the label. Files with one nearest repository have one label,
and what is marked as a repository above it does not matter.
-/
namespace Logmark

open Logmark.Tree

/-- The directory at the end of a row of names holds the entry that marks a repository. -/
def IsRepository (root : Tree) (names : List Text) : Prop :=
  (root.get? (names ++ [repositoryMark])).isSome = true

instance (root : Tree) (names : List Text) : Decidable (IsRepository root names) :=
  inferInstanceAs (Decidable (_ = true))

/-- Of the directories with a name that `directory` is or lies in, `nearest` is the last one that
is marked as a repository. -/
structure IsNearestRepository (root : Tree) (directory nearest : List Text) : Prop where
  above : nearest <+: directory
  named : nearest ≠ []
  marked : IsRepository root nearest
  nearest : ∀ other, other <+: directory → other ≠ [] → IsRepository root other →
    other <+: nearest

variable {root : Tree} {directory nearest nearest' names : List Text} {name : Text}
  {w w' : World} {path : Text} {content : ByteArray}

theorem IsNearestRepository.unique (h : IsNearestRepository root directory nearest)
    (h' : IsNearestRepository root directory nearest') : nearest = nearest' :=
  (h'.nearest nearest h.above h.named h.marked).eq_of_length_le
    (h.nearest nearest' h'.above h'.named h'.marked).length_le

theorem isNearestRepository_self (h : IsRepository root (directory ++ [name])) :
    IsNearestRepository root (directory ++ [name]) (directory ++ [name]) :=
  ⟨List.prefix_rfl, by simp, h, fun _ hother _ _ => hother⟩

/-- A directory that is not marked has the nearest repository of the directory above. -/
theorem isNearestRepository_concat_iff (h : ¬ IsRepository root (directory ++ [name])) :
    IsNearestRepository root (directory ++ [name]) nearest ↔
      IsNearestRepository root directory nearest := by
  have habove : ∀ other, IsRepository root other →
      (other <+: directory ++ [name] ↔ other <+: directory) := by
    intro other hother
    rw [List.prefix_concat_iff, or_iff_right]
    rintro rfl
    exact h hother
  constructor
  · intro hnearest
    refine ⟨(habove _ hnearest.marked).1 hnearest.above, hnearest.named, hnearest.marked, ?_⟩
    intro other hother hne hmarked
    exact hnearest.nearest other ((habove other hmarked).2 hother) hne hmarked
  · intro hnearest
    refine ⟨(habove _ hnearest.marked).2 hnearest.above, hnearest.named, hnearest.marked, ?_⟩
    intro other hother hne hmarked
    exact hnearest.nearest other ((habove other hmarked).1 hother) hne hmarked

/-- The name of the nearest repository around a directory, searched from the directory upwards. -/
def repositoryName? (root : Tree) (directory : List Text) : Option Text :=
  directory.inits.reverse.findSome? fun names =>
    if IsRepository root names then names.getLast? else none

theorem repositoryName?_concat (root : Tree) (directory : List Text) (name : Text) :
    repositoryName? root (directory ++ [name]) =
      if IsRepository root (directory ++ [name]) then some name
      else repositoryName? root directory := by
  have hinits : (directory ++ [name]).inits.reverse =
      (directory ++ [name]) :: directory.inits.reverse := by
    simp [List.inits_append]
  rw [repositoryName?, hinits, List.findSome?_cons, List.getLast?_concat]
  by_cases h : IsRepository root (directory ++ [name])
  · rw [if_pos h, if_pos h]
  · rw [if_neg h, if_neg h, repositoryName?]

theorem repositoryName?_eq_some_iff :
    repositoryName? root directory = some name ↔
      ∃ above, IsNearestRepository root directory (above ++ [name]) := by
  induction directory using List.reverseRecOn with
  | nil =>
    constructor
    · intro h
      simp [repositoryName?] at h
    · rintro ⟨above, h⟩
      simpa using h.above
  | append_singleton directory last ih =>
    rw [repositoryName?_concat]
    by_cases hmarked : IsRepository root (directory ++ [last])
    · rw [if_pos hmarked]
      constructor
      · intro h
        obtain rfl := Option.some.inj h
        exact ⟨directory, isNearestRepository_self hmarked⟩
      · rintro ⟨above, h⟩
        have hsame := (List.append_inj' ((isNearestRepository_self hmarked).unique h) rfl).2
        rw [List.singleton_inj.1 hsame]
    · rw [if_neg hmarked, ih]
      simp only [isNearestRepository_concat_iff hmarked]

section Runs

variable {σ α β : Type}

theorem run_stateM_bind (x : StateM σ α) (f : α → StateM σ β) (s : σ) :
    (x >>= f).run s = (f (x.run s).1).run (x.run s).2 := rfl

theorem findSome?_congr {f g : α → Option β} {as : List α} (h : ∀ a ∈ as, f a = g a) :
    as.findSome? f = as.findSome? g := by
  rw [← Function.id_comp f, ← Function.id_comp g, ← List.findSome?_map, ← List.findSome?_map,
    List.map_congr_left h]

/-- A search that only asks gives what its questions give on the state as it is. -/
theorem run_findSomeM? {f : α → StateM σ (Option β)} (hf : ∀ a, Keeps (fun s => s) (f a))
    (as : List α) (s : σ) :
    (as.findSomeM? f).run s = (as.findSome? fun a => ((f a).run s).1, s) := by
  induction as with
  | nil => rfl
  | cons a as ih =>
    have hstate : ((f a).run s).2 = s := hf a s
    rw [List.findSomeM?_cons, List.findSome?_cons, run_stateM_bind, hstate]
    cases ((f a).run s).1 with
    | none => exact ih
    | some b => rfl

end Runs

/-- The label that a file of a world is given. -/
def World.label (w : World) (path : Text) : Text :=
  ((workspaceLabel (m := StateM World) path).run w).1

/-- What is asked of one directory in the search. -/
def askRoot (directory : Text) : StateM World (Option Text) := do
  if ← Files.isThere (Path.entry directory repositoryMark) then return Path.name? directory
  else return none

theorem run_askRoot (directory : Text) (w : World) :
    (askRoot directory).run w =
      (if (w.find? (Path.entry directory repositoryMark)).isSome then Path.name? directory
        else none, w) := by
  have hrun : (askRoot directory).run w =
      (if (w.find? (Path.entry directory repositoryMark)).isSome then
        (return Path.name? directory : StateM World (Option Text)) else return none).run w := rfl
  rw [hrun]
  split <;> rfl

/-- The label is searched from the path that stands for the file in the tree. -/
theorem label_eq (w : World) (path : Text) :
    let place := ((w.resolve? path).map (Path.ofSegments [])).getD path
    w.label path = (((Path.ancestors place).findSome? fun directory =>
        if (w.find? (Path.entry directory repositoryMark)).isSome then Path.name? directory
        else none) <|> (Path.parent? place).bind Path.name?).getD unknownWorkspace := by
  intro place
  have hkeeps : ∀ directory, Keeps (fun w => w) (askRoot directory) := fun directory w => by
    rw [run_askRoot]
  have hlabel : w.label path = ((((Path.ancestors place).findSomeM? askRoot).run w).1 <|>
      (Path.parent? place).bind Path.name?).getD unknownWorkspace := rfl
  rw [hlabel, run_findSomeM? hkeeps]
  simp only [run_askRoot]

/-- At the path of a row of names, the search asks whether a repository is there. -/
theorem askedRoot_eq (h : ∀ n ∈ names, Path.IsName n) (w : World) :
    (if (w.find? (Path.entry (Path.ofSegments [] names) repositoryMark)).isSome then
      Path.name? (Path.ofSegments [] names) else none) =
    if IsRepository w.root names then names.getLast? else none := by
  have hmark : Path.IsName repositoryMark := ⟨by decide, by decide, by decide⟩
  have hentry : ∀ n ∈ names ++ [repositoryMark], Path.IsName n :=
    List.forall_mem_append.2 ⟨h, List.forall_mem_singleton.2 hmark⟩
  rw [Path.entry_ofSegments h, World.find?_ofSegments hentry (by simp), Path.name?_ofSegments h]
  rfl

/-- The label of a file is the name of the nearest repository around its directory, or else that of
the directory itself. -/
theorem label_of_resolve? (h : ∀ n ∈ directory ++ [name], Path.IsName n)
    (hresolve : w.resolve? path = some (directory ++ [name])) :
    w.label path =
      (repositoryName? w.root directory <|> directory.getLast?).getD unknownWorkspace := by
  have hdirectory : ∀ n ∈ directory, Path.IsName n := fun n hn => h n (List.mem_append_left _ hn)
  have hsearch : ((directory.inits.reverse.map (Path.ofSegments [])).findSome? fun above =>
      if (w.find? (Path.entry above repositoryMark)).isSome then Path.name? above else none) =
        repositoryName? w.root directory := by
    rw [List.findSome?_map]
    refine findSome?_congr fun names hnames => ?_
    have hstarts := (List.mem_inits _ _).1 (List.mem_reverse.1 hnames)
    exact askedRoot_eq (fun n hn => hdirectory n (hstarts.subset hn)) w
  rw [label_eq, hresolve, Option.map_some, Option.getD_some, Path.parent?_ofSegments h,
    Option.bind_some, Path.name?_ofSegments hdirectory, Path.ancestors_ofSegments h, hsearch]

theorem label_of_isNearestRepository (h : ∀ n ∈ directory ++ [name], Path.IsName n)
    (hresolve : w.resolve? path = some (directory ++ [name]))
    (hnearest : IsNearestRepository w.root directory nearest) :
    w.label path = nearest.getLast hnearest.named := by
  have hroot : repositoryName? w.root directory = some (nearest.getLast hnearest.named) := by
    refine repositoryName?_eq_some_iff.2 ⟨nearest.dropLast, ?_⟩
    rwa [List.dropLast_append_getLast]
  rw [label_of_resolve? h hresolve, hroot]
  rfl

/-- Entries `.git` are put into directories above `directory` or taken out of them, and nothing
else changes: what is not the same stands at such an entry, or below it, and one of the worlds has
no such entry. -/
structure MarksChangeAbove (directory : List Text) (w w' : World) : Prop where
  current : w'.current = w.current
  marks : ∀ names, w'.root.node? names ≠ w.root.node? names →
    ∃ above, above <+: directory ∧ above ≠ directory ∧ above ++ [repositoryMark] <+: names ∧
      (¬ IsRepository w.root above ∨ ¬ IsRepository w'.root above)

/-- Where the same file is there before and after, no directory at or below the nearest repository
is marked in another way. -/
theorem MarksChangeAbove.isRepository_iff (h : MarksChangeAbove nearest w w')
    (hnearest : nearest <+: names) (hthere : (w.root.get? names).isSome = true)
    (hthere' : (w'.root.get? names).isSome = true) :
    IsRepository w'.root names ↔ IsRepository w.root names := by
  have hsame : w'.root.node? (names ++ [repositoryMark]) =
      w.root.node? (names ++ [repositoryMark]) := by
    by_contra hne
    obtain ⟨above, hstarts, hproper, hmark, hmissing⟩ := h.marks _ hne
    have hlength : above.length < nearest.length := by
      refine lt_of_le_of_ne hstarts.length_le fun heq => hproper (hstarts.eq_of_length heq)
    -- A mark above the nearest repository that is on the way to the file is there in both worlds.
    have hway : above ++ [repositoryMark] <+: names := by
      refine List.prefix_of_prefix_length_le hmark (List.prefix_append names _) ?_
      have := hnearest.length_le
      rw [List.length_append, List.length_singleton]
      omega
    cases hmissing with
    | inl hmissing => exact hmissing (isSome_get?_of_starts hway hthere)
    | inr hmissing => exact hmissing (isSome_get?_of_starts hway hthere')
  rw [IsRepository, IsRepository, World.isSome_get?_iff, hsame, World.isSome_get?_iff]

theorem MarksChangeAbove.isNearestRepository (h : MarksChangeAbove nearest w w')
    (hnearest : IsNearestRepository w.root directory nearest)
    (hthere : (w.root.get? directory).isSome = true)
    (hthere' : (w'.root.get? directory).isSome = true) :
    IsNearestRepository w'.root directory nearest := by
  have hiff : ∀ names, nearest <+: names → names <+: directory →
      (IsRepository w'.root names ↔ IsRepository w.root names) := fun names hnames hdirectory =>
    h.isRepository_iff hnames (isSome_get?_of_starts hdirectory hthere)
      (isSome_get?_of_starts hdirectory hthere')
  refine ⟨hnearest.above, hnearest.named,
    (hiff nearest List.prefix_rfl hnearest.above).2 hnearest.marked, ?_⟩
  intro other hother hne hmarked
  rcases List.prefix_or_prefix_of_prefix hother hnearest.above with habove | hbelow
  · exact habove
  · exact hnearest.nearest other hother hne ((hiff other hbelow hother).1 hmarked)

/-- An entry `.git` is put into a directory above that has none. -/
theorem marksChangeAbove_setAt {above : List Text} {mark : Tree} (hstarts : above <+: directory)
    (hproper : above ≠ directory) (hdirectory : w.root.node? above = some none)
    (hfree : ¬ IsRepository w.root above) (hleaf : IsLeaf mark) :
    MarksChangeAbove directory w (w.setAt (above ++ [repositoryMark]) mark) := by
  refine ⟨rfl, fun names hne => ⟨above, hstarts, hproper, ?_, .inl hfree⟩⟩
  have hplace : w.root.node? (above ++ [repositoryMark]) ≠ some none := by
    rw [IsRepository, World.isSome_get?_iff, Option.not_isSome_iff_eq_none] at hfree
    rw [hfree]
    exact nofun
  by_cases hnames : names = above ++ [repositoryMark]
  · rw [hnames]
  · rw [World.setAt, node?_set hdirectory hplace hleaf, if_neg hnames] at hne
    exact absurd rfl hne

/-- A file stands at a name in a directory, and these are names that a path can be written of. -/
theorem exists_directory_of_find? (hcurrent : ∀ n ∈ w.current, Path.IsName n)
    (hfile : w.find? path = some (.file content)) :
    ∃ directory name, w.resolve? path = some (directory ++ [name]) ∧
      (∀ n ∈ directory ++ [name], Path.IsName n) ∧ (w.root.get? directory).isSome = true := by
  obtain ⟨names, hresolve, hplace⟩ := World.exists_place_of_find? hfile
  cases hplace with
  | @entry segments directory name hsegments hdirectory hidle hup hparent hfree =>
    refine ⟨directory, name, hresolve, World.isName_of_resolve? hcurrent hresolve, ?_⟩
    rw [World.isSome_get?_iff, hparent]
    rfl

/-- The label of a file is the name of the nearest directory above it that has a name and holds an
entry `.git`, or else the name of its own directory, or `UnknownRepo`. Files with one nearest
repository have one label, whatever entries `.git` there are above that. -/
theorem label_nearestRepository (hcurrent : ∀ n ∈ w.current, Path.IsName n)
    (hfile : w.find? path = some (.file content)) :
    ∃ directory name, w.resolve? path = some (directory ++ [name]) ∧
      (∀ above last, IsNearestRepository w.root directory (above ++ [last]) →
        w.label path = last) ∧
      ((∀ nearest, ¬ IsNearestRepository w.root directory nearest) →
        w.label path = directory.getLast?.getD unknownWorkspace) ∧
      ∀ nearest, IsNearestRepository w.root directory nearest →
        (∀ path' directory' name', w.resolve? path' = some (directory' ++ [name']) →
          IsNearestRepository w.root directory' nearest → w.label path' = w.label path) ∧
        ∀ w' content', MarksChangeAbove nearest w w' → w'.find? path = some (.file content') →
          w'.label path = w.label path := by
  obtain ⟨directory, name, hresolve, hnames, hthere⟩ := exists_directory_of_find? hcurrent hfile
  refine ⟨directory, name, hresolve, fun above last hnearest => ?_, fun hnone => ?_,
    fun nearest hnearest => ⟨?_, ?_⟩⟩
  · rw [label_of_isNearestRepository hnames hresolve hnearest, List.getLast_concat]
  · have hroot : repositoryName? w.root directory = none := by
      refine Option.eq_none_iff_forall_not_mem.2 fun last hlast => ?_
      obtain ⟨above, hnearest⟩ := repositoryName?_eq_some_iff.1 hlast
      exact hnone _ hnearest
    rw [label_of_resolve? hnames hresolve, hroot]
    rfl
  · intro path' directory' name' hresolve' hnearest'
    have hnames' := World.isName_of_resolve? hcurrent hresolve'
    rw [label_of_isNearestRepository hnames hresolve hnearest,
      label_of_isNearestRepository hnames' hresolve' hnearest']
  · intro w' content' hmarks hfile'
    have hcurrent' : ∀ n ∈ w'.current, Path.IsName n := by rwa [hmarks.current]
    obtain ⟨directory', name', hresolve', -, hthere'⟩ :=
      exists_directory_of_find? hcurrent' hfile'
    obtain ⟨rfl, hlast⟩ := List.append_inj'
      (World.resolve?_unique hmarks.current hresolve hresolve') rfl
    rw [List.singleton_inj.1 hlast] at hresolve'
    have hnearest' := hmarks.isNearestRepository hnearest hthere hthere'
    rw [label_of_isNearestRepository hnames hresolve hnearest,
      label_of_isNearestRepository hnames hresolve' hnearest']

/-- A repository with a file in it and one in a directory below. The directory above is none. -/
def nestedWorld : World where
  root := .directory [("home".toList, .directory [("app".toList, .directory
    [(".git".toList, .file .empty), ("b.js".toList, .file .empty),
      ("src".toList, .directory [("a.js".toList, .file .empty)])])])]
  current := ["home".toList, "app".toList]

/-- Both files have the repository's label, also when the directory above becomes a repository. -/
theorem label_nearestRepository_nested :
    let deep := "src/../src/a.js".toList
    let repository := ["home".toList, "app".toList]
    let marked := nestedWorld.setAt ["home".toList, repositoryMark] .empty
    nestedWorld.find? deep = some (.file .empty) ∧
      IsNearestRepository nestedWorld.root (repository ++ ["src".toList]) repository ∧
      MarksChangeAbove repository nestedWorld marked ∧
      nestedWorld.label deep = "app".toList ∧
      nestedWorld.label "/home/app/b.js".toList = "app".toList ∧
      marked.label deep = "app".toList := by
  intro deep repository marked
  have hcurrent : ∀ n ∈ nestedWorld.current, Path.IsName n := by
    simp only [nestedWorld, List.forall_mem_cons]
    exact ⟨⟨by decide, by decide, by decide⟩, ⟨by decide, by decide, by decide⟩,
      List.forall_mem_nil _⟩
  have hfile : nestedWorld.find? deep = some (.file .empty) := rfl
  have hself : IsNearestRepository nestedWorld.root repository repository :=
    isNearestRepository_self
      (show IsRepository nestedWorld.root (["home".toList] ++ ["app".toList]) by decide)
  have hnearest : IsNearestRepository nestedWorld.root (repository ++ ["src".toList]) repository :=
    (isNearestRepository_concat_iff (by decide)).2 hself
  have hmarks : MarksChangeAbove repository nestedWorld marked :=
    marksChangeAbove_setAt (show ["home".toList] <+: repository by decide) (by decide) rfl
      (by decide) isLeaf_empty
  obtain ⟨directory, name, hresolve, hlabel, -, hsame⟩ := label_nearestRepository hcurrent hfile
  have hplace : nestedWorld.resolve? deep =
      some ((repository ++ ["src".toList]) ++ ["a.js".toList]) := rfl
  obtain ⟨rfl, -⟩ := List.append_inj' (Option.some.inj (hplace.symm.trans hresolve)) rfl
  have happ : nestedWorld.label deep = "app".toList := hlabel ["home".toList] _ hnearest
  refine ⟨hfile, hnearest, hmarks, happ, ?_, ?_⟩
  · exact ((hsame repository hnearest).1 _ repository "b.js".toList rfl hself).trans happ
  · exact ((hsame repository hnearest).2 marked _ hmarks rfl).trans happ

end Logmark
