import Logmark.Files.Load
import Logmark.Files.Tree
import Mathlib.Data.List.Basic

/-!
What changes in a tree of files. A tree is seen as a map from rows of names to what stands there, a
directory or a file with its content, and every operation is an update of this map in one place. A
path that led somewhere before a file is written leads there afterwards, and the path that was
written leads to the new content.
-/
namespace Logmark

namespace Tree

variable {tree new : Tree} {entries : List (Text × Tree)} {name : Text} {names parent : List Text}

/-- What stands at the end of a row of names, if anything does: a directory, which has no content,
or a file with its content. -/
def node? (tree : Tree) (names : List Text) : Option (Option ByteArray) :=
  (tree.get? names).map content?

@[simp] theorem node?_nil (tree : Tree) : tree.node? [] = some tree.content? := rfl

@[simp] theorem node?_file_cons (content : ByteArray) (name : Text) (names : List Text) :
    (file content).node? (name :: names) = none := rfl

theorem node?_directory_cons (entries : List (Text × Tree)) (name : Text) (names : List Text) :
    (directory entries).node? (name :: names) = (entries.lookup name).bind (·.node? names) := by
  rw [node?, get?, entry?]
  cases entries.lookup name <;> rfl

theorem content?_eq_none_iff : tree.content? = none ↔ ∃ entries, tree = directory entries := by
  cases tree <;> simp [content?]

theorem lookup_entry_cons (name name' : Text) (tree : Tree) (entries : List (Text × Tree)) :
    ((name, tree) :: entries).lookup name' =
      if name' = name then some tree else entries.lookup name' := by
  rw [List.lookup_cons]
  by_cases h : name' = name
  · simp [h]
  · rw [beq_false_of_ne h, if_neg h]

theorem lookup_setEntry (name name' : Text) (tree : Tree) (entries : List (Text × Tree)) :
    (setEntry name tree entries).lookup name' =
      if name' = name then some tree else entries.lookup name' := by
  induction entries with
  | nil => rw [setEntry, lookup_entry_cons]
  | cons entry entries ih =>
    rw [setEntry]
    split
    · rename_i heq
      rw [lookup_entry_cons, lookup_entry_cons, heq]
      split <;> rfl
    · rename_i hne
      rw [lookup_entry_cons, lookup_entry_cons, ih]
      by_cases h : name' = name
      · simp [h, Ne.symm hne]
      · simp [h]

/-- A tree with nothing below it. -/
def IsLeaf (tree : Tree) : Prop := ∀ name names, tree.node? (name :: names) = none

theorem isLeaf_file (content : ByteArray) : IsLeaf (file content) := fun _ _ => rfl

theorem isLeaf_empty : IsLeaf empty := fun _ _ => rfl

/-- Where no directory stands, nothing stands below. -/
theorem node?_bind_cons (h : (entries.lookup name).bind (·.node? []) ≠ some none) (next : Text)
    (names : List Text) : (entries.lookup name).bind (·.node? (next :: names)) = none := by
  cases hlookup : entries.lookup name with
  | none => rfl
  | some tree =>
    cases tree with
    | file content => rfl
    | directory below =>
      rw [hlookup] at h
      exact absurd rfl h

/-- Putting a leaf into a directory, where no directory is in its place, changes the tree there and
nowhere else. -/
theorem node?_set (hparent : tree.node? parent = some none)
    (hplace : tree.node? (parent ++ [name]) ≠ some none) (hleaf : IsLeaf new) (names : List Text) :
    (tree.set (parent ++ [name]) new).node? names =
      if names = parent ++ [name] then some new.content? else tree.node? names := by
  induction parent generalizing tree names with
  | nil =>
    obtain ⟨entries, rfl⟩ := content?_eq_none_iff.1 (Option.some.inj hparent)
    rw [List.nil_append, node?_directory_cons] at hplace
    rw [List.nil_append, set, set]
    rcases names with _ | ⟨first, rest⟩
    · rfl
    rw [node?_directory_cons, node?_directory_cons, lookup_setEntry]
    by_cases hfirst : first = name
    · subst hfirst
      rcases rest with _ | ⟨next, rest⟩
      · simp
      · simp [hleaf next rest, node?_bind_cons hplace]
    · simp [hfirst]
  | cons step parent ih =>
    obtain ⟨entries, rfl⟩ : ∃ entries, tree = directory entries := by
      cases tree with
      | file content => simp at hparent
      | directory entries => exact ⟨entries, rfl⟩
    rw [node?_directory_cons] at hparent
    obtain ⟨sub, hsub, hbelow⟩ := Option.bind_eq_some_iff.1 hparent
    rw [List.cons_append, node?_directory_cons, hsub, Option.bind_some] at hplace
    rw [List.cons_append, set, hsub, Option.getD_some]
    rcases names with _ | ⟨first, rest⟩
    · rfl
    rw [node?_directory_cons, node?_directory_cons, lookup_setEntry]
    by_cases hfirst : first = step
    · subst hfirst
      rw [if_pos rfl, Option.bind_some, ih hbelow hplace, hsub]
      simp
    · simp [hfirst]

/-- Above something there are directories only. -/
theorem node?_of_append (h : (tree.node? (parent ++ name :: names)).isSome) :
    tree.node? parent = some none := by
  induction parent generalizing tree with
  | nil =>
    cases tree with
    | file content => simp at h
    | directory entries => rfl
  | cons step parent ih =>
    cases tree with
    | file content => simp at h
    | directory entries =>
      rw [List.cons_append, node?_directory_cons] at h
      rw [node?_directory_cons]
      cases hsub : entries.lookup step with
      | none => simp [hsub] at h
      | some sub =>
        rw [hsub] at h
        exact ih h

end Tree

namespace World

open Logmark.Tree

variable {w w' : World} {path segment : Text} {names next parent segments : List Text}
  {bytes : ByteArray} {name : Text}

/-- The content of the file at the end of a row of names. -/
def content? (w : World) (names : List Text) : Option ByteArray :=
  (w.root.get? names).bind Tree.content?

theorem content?_eq_join (w : World) (names : List Text) :
    w.content? names = (w.root.node? names).join := by
  rw [content?, node?]
  cases w.root.get? names <;> rfl

theorem isDirectoryAt_iff : w.isDirectoryAt names = true ↔ w.root.node? names = some none := by
  rw [isDirectoryAt, node?]
  cases w.root.get? names with
  | none => simp
  | some tree => cases tree <;> simp [isDirectory, Tree.content?]

theorem isSome_get?_iff : (w.root.get? names).isSome = (w.root.node? names).isSome := by
  rw [node?, Option.isSome_map]

/-- Where one segment of a path leads from a directory. -/
inductive Steps (w : World) : List Text → Text → List Text → Prop where
  | idle {names : List Text} {segment : Text} : w.root.node? names = some none →
    Path.isIdle segment = true → Steps w names segment names
  | up {names : List Text} : w.root.node? names = some none → Steps w names Path.up names.dropLast
  | down {names : List Text} {segment : Text} : w.root.node? names = some none →
    Path.isIdle segment = false → segment ≠ Path.up →
    (w.root.node? (names ++ [segment])).isSome = true → Steps w names segment (names ++ [segment])

theorem step?_eq_some_iff : w.step? names segment = some next ↔ w.Steps names segment next := by
  simp only [step?, isDirectoryAt_iff, isSome_get?_iff]
  constructor
  · intro h
    split at h
    · contradiction
    rename_i hdirectory
    rw [not_not] at hdirectory
    split at h
    · rename_i hidle
      exact Option.some.inj h ▸ .idle hdirectory hidle
    rename_i hidle
    split at h
    · rename_i hup
      exact Option.some.inj h ▸ hup ▸ .up hdirectory
    rename_i hup
    split at h
    · rename_i hthere
      exact Option.some.inj h ▸ .down hdirectory (Bool.eq_false_iff.2 hidle) hup hthere
    · contradiction
  · intro h
    cases h with
    | idle hdirectory hidle => simp [hdirectory, hidle]
    | up hdirectory => simp [hdirectory, show Path.isIdle Path.up = false from rfl]
    | down hdirectory hidle hup hthere => simp [hdirectory, hidle, hup, hthere]

/-- All that is in `w` is in `w'`, and directories are still directories. -/
structure Extends (w w' : World) : Prop where
  current : w'.current = w.current
  directory : ∀ names, w.root.node? names = some none → w'.root.node? names = some none
  there : ∀ names, (w.root.node? names).isSome → (w'.root.node? names).isSome

theorem Extends.step? (h : w.Extends w') (hstep : w.step? names segment = some next) :
    w'.step? names segment = some next := by
  rw [step?_eq_some_iff] at hstep ⊢
  cases hstep with
  | idle hdirectory hidle => exact .idle (h.directory names hdirectory) hidle
  | up hdirectory => exact .up (h.directory names hdirectory)
  | down hdirectory hidle hup hthere =>
    exact .down (h.directory names hdirectory) hidle hup (h.there _ hthere)

/-- A path leads where it led before. -/
theorem Extends.foldlM_step? (h : w.Extends w')
    (hsteps : segments.foldlM w.step? names = some next) :
    segments.foldlM w'.step? names = some next := by
  induction segments generalizing names with
  | nil => exact hsteps
  | cons segment segments ih =>
    rw [List.foldlM_cons] at hsteps ⊢
    obtain ⟨between, hstep, hsteps⟩ := Option.bind_eq_some_iff.1 hsteps
    exact Option.bind_eq_some_iff.2 ⟨between, h.step? hstep, ih hsteps⟩

/-- `w'` has a file at the end of `names`, where no directory was, and is like `w` elsewhere. -/
structure Puts (names : List Text) (bytes : ByteArray) (w w' : World) : Prop where
  current : w'.current = w.current
  free : w.root.node? names ≠ some none
  node?_eq : ∀ other, w'.root.node? other =
    if other = names then some (some bytes) else w.root.node? other

theorem Puts.extends (h : Puts names bytes w w') : w.Extends w' where
  current := h.current
  directory other hother := by
    have hne : other ≠ names := fun heq => h.free (heq ▸ hother)
    rw [h.node?_eq, if_neg hne, hother]
  there other hother := by
    rw [h.node?_eq]
    split
    · rfl
    · exact hother

theorem Puts.content?_eq (h : Puts names bytes w w') {other : List Text} (hne : other ≠ names) :
    w'.content? other = w.content? other := by
  rw [content?_eq_join, content?_eq_join, h.node?_eq, if_neg hne]

/-- The places of files that can be written: a name in a directory, with no directory under it. -/
inductive Place (w : World) (path : Text) : List Text → Prop where
  | entry {segments directory : List Text} {name : Text} :
    Path.segments path = segments ++ [name] →
    segments.foldlM w.step? (w.origin path) = some directory →
    Path.isIdle name = false → name ≠ Path.up → w.root.node? directory = some none →
    w.root.node? (directory ++ [name]) ≠ some none → Place w path (directory ++ [name])

theorem place?_eq_some_iff : w.place? path = some names ↔ w.Place path names := by
  simp only [place?, isDirectoryAt_iff, Option.bind_eq_bind, Option.bind_eq_some_iff]
  constructor
  · rintro ⟨name, hname, directory, hdirectory, h⟩
    split at h
    · contradiction
    rename_i hproper
    split at h
    · contradiction
    rename_i hfree
    simp only [not_or, not_not, Bool.not_eq_true] at hproper
    obtain ⟨hidle, hup, hparent⟩ := hproper
    have hsegments := List.dropLast_append_getLast? name hname
    exact Option.some.inj h ▸ .entry hsegments.symm hdirectory hidle hup hparent hfree
  · rintro ⟨hsegments, hdirectory, hidle, hup, hparent, hfree⟩
    rw [hsegments, List.getLast?_concat, List.dropLast_concat]
    exact ⟨_, rfl, _, hdirectory, by simp [hidle, hup, hparent, hfree]⟩

theorem Place.puts (h : w.Place path names) (bytes : ByteArray) :
    Puts names bytes w (w.setAt names (.file bytes)) := by
  obtain ⟨-, -, -, -, hparent, hfree⟩ := h
  exact ⟨rfl, hfree, node?_set hparent hfree (isLeaf_file bytes)⟩

theorem origin_eq_of_current (h : w'.current = w.current) (path : Text) :
    w'.origin path = w.origin path := by
  rw [origin, origin, h]

/-- The path that was written leads to the file. -/
theorem Place.resolve?_of_puts (h : w.Place path names) (hputs : Puts names bytes w w') :
    w'.resolve? path = some names := by
  cases h with
  | @entry segments directory name hsegments hdirectory hidle hup hparent hfree =>
    have hne : path ≠ [] := by
      rintro rfl
      have hlast : some [] = (segments ++ [name]).getLast? := congrArg List.getLast? hsegments
      rw [List.getLast?_concat, Option.some.injEq] at hlast
      rw [← hlast] at hidle
      contradiction
    have hthere : (w'.root.node? (directory ++ [name])).isSome = true := by
      rw [hputs.node?_eq, if_pos rfl]
      rfl
    have hstep : w'.step? directory name = some (directory ++ [name]) :=
      step?_eq_some_iff.2 (.down (hputs.extends.directory _ hparent) hidle hup hthere)
    rw [resolve?, if_neg hne, hsegments, List.foldlM_append,
      origin_eq_of_current hputs.current, hputs.extends.foldlM_step? hdirectory]
    exact Option.bind_eq_some_iff.2 ⟨directory, rfl, Option.bind_eq_some_iff.2 ⟨_, hstep, rfl⟩⟩

theorem Place.find?_of_puts (h : w.Place path names) (hputs : Puts names bytes w w') :
    w'.find? path = some (.file bytes) := by
  have hnode := hputs.node?_eq names
  rw [if_pos rfl, node?] at hnode
  obtain ⟨tree, htree, hcontent⟩ := Option.map_eq_some_iff.1 hnode
  rw [find?, h.resolve?_of_puts hputs, Option.bind_some, htree]
  cases tree with
  | file content => rw [Option.some.inj hcontent]
  | directory entries => cases hcontent

/-- A write that succeeds puts a file in its place, and one that fails changes nothing. -/
theorem write_cases (w : World) (path : Text) (bytes : ByteArray) :
    (∃ names, w.Place path names ∧
      w.write path bytes = (true, w.setAt names (.file bytes))) ∨
      w.write path bytes = (false, w) := by
  rw [write]
  cases hplace : w.place? path with
  | none => exact .inr rfl
  | some names => exact .inl ⟨names, place?_eq_some_iff.1 hplace, rfl⟩

/-- A file that is there can be written where it is. -/
theorem exists_place_of_find? {content : ByteArray} (h : w.find? path = some (.file content)) :
    ∃ names, w.resolve? path = some names ∧ w.Place path names := by
  obtain ⟨names, hnames, htree⟩ := Option.bind_eq_some_iff.1 h
  have hnode : w.root.node? names = some (some content) := by rw [node?, htree]; rfl
  refine ⟨names, hnames, ?_⟩
  rw [resolve?] at hnames
  split at hnames
  · contradiction
  obtain ⟨segments, name, hsegments⟩ :
      ∃ segments name, Path.segments path = segments ++ [name] := by
    cases List.eq_nil_or_concat (Path.segments path) with
    | inl hnil =>
      have := Text.length_pieces (· == '/') path
      rw [← Path.segments, hnil, List.length_nil] at this
      omega
    | inr hconcat =>
      obtain ⟨segments, name, hconcat⟩ := hconcat
      exact ⟨segments, name, by rw [hconcat, List.concat_eq_append]⟩
  rw [hsegments, List.foldlM_append] at hnames
  obtain ⟨directory, hdirectory, hlast⟩ := Option.bind_eq_some_iff.1 hnames
  obtain ⟨next, hstep, hnext⟩ := Option.bind_eq_some_iff.1 hlast
  obtain rfl : next = names := Option.some.inj hnext
  cases step?_eq_some_iff.1 hstep with
  | idle hparent hidle =>
    rw [hparent] at hnode
    cases hnode
  | up hparent =>
    have habove : w.root.node? directory.dropLast = some none := by
      cases List.eq_nil_or_concat directory with
      | inl hnil => rwa [hnil] at hparent ⊢
      | inr hconcat =>
        obtain ⟨above, last, rfl⟩ := hconcat
        rw [List.concat_eq_append] at hparent ⊢
        rw [List.dropLast_concat]
        have hbelow : (w.root.node? (above ++ last :: [])).isSome = true := by rw [hparent]; rfl
        exact node?_of_append hbelow
    rw [habove] at hnode
    cases hnode
  | down hparent hidle hup hthere =>
    refine .entry hsegments hdirectory hidle hup hparent ?_
    rw [hnode]
    simp

/-- The text in the file that a path leads to. -/
def readText? (w : World) (path : Text) : Option Text :=
  ((w.find? path).bind Tree.content?).bind Text.decode?

theorem Place.readText?_of_puts {text : Text} (h : w.Place path names)
    (hputs : Puts names (Text.encode text) w w') : w'.readText? path = some text := by
  rw [readText?, h.find?_of_puts hputs]
  exact Text.decode?_encode text

/-- Loading a value reads the text of the file and leaves the files as they are. -/
theorem run_load {α : Type} (ofJson : Text → Except Json.Fault α) (path : Text) (w : World) :
    (Files.load (m := StateM World) ofJson path).run w =
      (match w.readText? path with
        | none => .error .unreadable
        | some text => (ofJson text).mapError .json, w) := by
  have hrun : (Files.load (m := StateM World) ofJson path).run w =
      (match w.readText? path with
        | none => (return .error .unreadable : StateM World (Except LoadError α))
        | some text => return (ofJson text).mapError .json).run w := rfl
  rw [hrun]
  cases w.readText? path <;> rfl

/-- Making directories touches no file. -/
theorem content?_makeDirectories (w : World) (names segments : List Text) :
    (w.makeDirectories names segments).2.content? = w.content? := by
  induction segments generalizing w names with
  | nil => rfl
  | cons segment segments ih =>
    rw [makeDirectories]
    split
    · rfl
    rename_i hdirectory
    rw [not_not, isDirectoryAt_iff] at hdirectory
    split
    · exact ih w names
    split
    · exact ih w names.dropLast
    split
    · exact ih w _
    · rename_i hmissing
      rw [isSome_get?_iff, Option.not_isSome_iff_eq_none] at hmissing
      rw [ih]
      funext other
      have hnode := node?_set hdirectory (by rw [hmissing]; simp) isLeaf_empty other
      rw [content?_eq_join, content?_eq_join, setAt, hnode]
      split
      · rename_i heq
        rw [heq, hmissing]
        rfl
      · rfl

end World
end Logmark
