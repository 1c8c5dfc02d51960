import Mathlib.Data.List.Basic
import Logmark.Symbol.Basic

/-!
The symbol around a position. A symbol is named by the way to it: its number on the top level, or
the way to its parent and its number among the children. The search goes down into the first symbol
of each level that holds the position, up to one with no such child. It never goes back, but where
children lie within their parents and no level holds the position twice, the way to every symbol
that holds it is the start of the way that the search takes.
-/
namespace Logmark

namespace Range

variable {p : Position} {r s t : Range}

/-- A range lies within another if all its positions do. -/
instance : HasSubset Range := ⟨fun r s => ∀ p ∈ r, p ∈ s⟩

theorem subset_refl (r : Range) : r ⊆ r := fun _ hp => hp

theorem subset_trans (h : r ⊆ s) (h' : s ⊆ t) : r ⊆ t := fun p hp => h' p (h p hp)

theorem subset_of_le (hstart : s.start ≤ r.start) (hstop : r.stop ≤ s.stop) : r ⊆ s :=
  fun _ hp => ⟨Position.le_trans hstart hp.1, Position.le_trans hp.2 hstop⟩

/-- The ends of a range that holds a position are positions in it. -/
theorem le_of_subset (h : r ⊆ s) (hp : p ∈ r) : s.start ≤ r.start ∧ r.stop ≤ s.stop := by
  have hordered : r.start ≤ r.stop := Position.le_trans hp.1 hp.2
  exact ⟨(h _ ⟨Position.le_refl _, hordered⟩).1, (h _ ⟨hordered, Position.le_refl _⟩).2⟩

end Range

namespace Symbol

/-- The symbol that a way leads to from `s`: each number is that of a child. -/
def at? (s : Symbol) : List Nat → Option Symbol
  | [] => some s
  | i :: way => s.children[i]?.bind fun child => child.at? way

theorem at?_append (s : Symbol) (way more : List Nat) :
    s.at? (way ++ more) = (s.at? way).bind (·.at? more) := by
  induction way generalizing s with
  | nil => rfl
  | cons i way ih =>
    rw [List.cons_append, at?, at?, Option.bind_assoc]
    congr 1
    funext child
    exact ih child

end Symbol

namespace Outline

variable {p : Position} {outline level : Outline} {r s t : Symbol} {i j : Nat}
  {way more : List Nat}

/-- The symbol that a way leads to from the top level. -/
def at? (outline : Outline) : List Nat → Option Symbol
  | [] => none
  | i :: way => outline[i]?.bind fun s => s.at? way

theorem at?_cons (h : outline[i]? = some s) : outline.at? (i :: way) = s.at? way := by
  rw [at?, h, Option.bind_some]

theorem at?_append (h : outline.at? way = some s) : outline.at? (way ++ more) = s.at? more := by
  cases way with
  | nil => contradiction
  | cons i way =>
    obtain ⟨t, ht, hs⟩ := Option.bind_eq_some_iff.1 h
    rw [List.cons_append, at?_cons ht, Symbol.at?_append, hs, Option.bind_some]

/-- A way from the children of a symbol is a way from the symbol. -/
theorem at?_children (h : at? s.children way = some r) : s.at? way = some r := by
  cases way with
  | nil => contradiction
  | cons i way => exact h

/-- All symbols of an outline have a property, at whatever depth. -/
def Everywhere (P : Symbol → Prop) (outline : Outline) : Prop :=
  ∀ way s, outline.at? way = some s → P s

theorem everywhere_nil {P : Symbol → Prop} : Everywhere P [] := by
  intro way s hs
  cases way <;> contradiction

theorem Everywhere.children {P : Symbol → Prop} (h : Everywhere P outline)
    (hs : outline[i]? = some s) : Everywhere P s.children :=
  fun way r hr => h (i :: way) r ((at?_cons hs).trans (at?_children hr))

theorem everywhere_cons_iff {P : Symbol → Prop} :
    Everywhere P (s :: outline) ↔ P s ∧ Everywhere P s.children ∧ Everywhere P outline := by
  constructor
  · intro h
    refine ⟨h [0] s rfl, h.children (i := 0) rfl, fun way r hr => ?_⟩
    cases way with
    | nil => contradiction
    | cons i way => exact h ((i + 1) :: way) r hr
  · rintro ⟨hs, hchildren, houtline⟩ way r hr
    match way with
    | [0] => exact Option.some.inj hr ▸ hs
    | 0 :: i :: way => exact hchildren (i :: way) r hr
    | (i + 1) :: way => exact houtline (i :: way) r hr

/-- Children lie within their parents. -/
def Nested (outline : Outline) : Prop :=
  outline.Everywhere fun s => ∀ child ∈ s.children, child.range ⊆ s.range

/-- So do their children in turn. -/
theorem Nested.range_subset (h : outline.Nested) (hs : outline.at? way = some s)
    (hr : s.at? more = some r) : r.range ⊆ s.range := by
  induction more generalizing way s with
  | nil =>
    obtain rfl : s = r := Option.some.inj hr
    exact Range.subset_refl _
  | cons i more ih =>
    obtain ⟨child, hchild, hr⟩ := Option.bind_eq_some_iff.1 hr
    have hway : outline.at? (way ++ [i]) = some child := by
      rw [at?_append hs, Symbol.at?, hchild]
      rfl
    exact Range.subset_trans (ih hway hr) (h way s hs child (List.mem_of_getElem? hchild))

/-- No two symbols of a level hold `p`. -/
def OneAround (p : Position) (level : Outline) : Prop :=
  level.Pairwise fun s t => ¬ (p ∈ s.range ∧ p ∈ t.range)

instance (p : Position) (level : Outline) : Decidable (OneAround p level) :=
  inferInstanceAs (Decidable (level.Pairwise _))

/-- No two siblings hold `p`, on the top level or below. -/
structure Unambiguous (outline : Outline) (p : Position) : Prop where
  top : OneAround p outline
  below : outline.Everywhere fun s => OneAround p s.children

theorem Unambiguous.children (h : outline.Unambiguous p) (hs : outline[i]? = some s) :
    Unambiguous s.children p :=
  ⟨h.below [i] s (at?_cons hs), h.below.children hs⟩

/-- `s` is the first symbol of a level that holds `p`, and `i` is its number. -/
structure FirstAround (p : Position) (level : Outline) (i : Nat) (s : Symbol) : Prop where
  getElem?_eq : level[i]? = some s
  mem_range : p ∈ s.range
  earlier : ∀ t ∈ level.take i, p ∉ t.range

theorem FirstAround.unique (h : FirstAround p level i s) (h' : FirstAround p level j t) :
    i = j ∧ s = t := by
  have hlt : ∀ {i j s t}, FirstAround p level i s → FirstAround p level j t → ¬ i < j := by
    intro i j s t h h' hij
    have hmem : (level.take j)[i]? = some s := by rw [List.getElem?_take_of_lt hij, h.getElem?_eq]
    exact h'.earlier s (List.mem_of_getElem? hmem) h.mem_range
  obtain rfl : i = j := Nat.le_antisymm (Nat.not_lt.1 (hlt h' h)) (Nat.not_lt.1 (hlt h h'))
  exact ⟨rfl, Option.some.inj (h.getElem?_eq.symm.trans h'.getElem?_eq)⟩

theorem FirstAround.cons (h : FirstAround p level i s) (ht : p ∉ t.range) :
    FirstAround p (t :: level) (i + 1) s where
  getElem?_eq := h.getElem?_eq
  mem_range := h.mem_range
  earlier u hu := (List.mem_cons.1 hu).elim (fun hut => hut ▸ ht) (h.earlier u)

/-- Where one symbol of a level only can hold `p`, it is the first. -/
theorem OneAround.firstAround (h : OneAround p level) (hs : level[i]? = some s)
    (hp : p ∈ s.range) : FirstAround p level i s where
  getElem?_eq := hs
  mem_range := hp
  earlier t ht hpt := by
    have hdrop : (level.drop i)[0]? = some s := by rw [List.getElem?_drop, Nat.add_zero, hs]
    rw [OneAround, ← List.take_append_drop i level, List.pairwise_append] at h
    exact h.2.2 t ht s (List.mem_of_getElem? hdrop) ⟨hpt, hp⟩

/-- The way down from a level that goes into the first symbol around `p`, and on into the first of
its children around `p`, as far as `r`. -/
inductive GoesDown (p : Position) : Outline → List Nat → Symbol → Prop
  | here {level : Outline} {i : Nat} {r : Symbol} (h : FirstAround p level i r) :
      GoesDown p level [i] r
  | deeper {level : Outline} {i : Nat} {way : List Nat} {s r : Symbol}
      (h : FirstAround p level i s) (hr : GoesDown p s.children way r) :
      GoesDown p level (i :: way) r

theorem GoesDown.at?_eq (h : GoesDown p level way r) : level.at? way = some r := by
  induction h with
  | here h => exact at?_cons h.getElem?_eq
  | deeper h _ ih => exact (at?_cons h.getElem?_eq).trans (at?_children ih)

theorem GoesDown.mem_range (h : GoesDown p level way r) : p ∈ r.range := by
  induction h with
  | here h => exact h.mem_range
  | deeper _ _ ih => exact ih

theorem GoesDown.cons (h : GoesDown p level way r) (ht : p ∉ t.range) :
    ∃ way, GoesDown p (t :: level) way r := by
  cases h with
  | here h => exact ⟨_, .here (h.cons ht)⟩
  | deeper h hr => exact ⟨_, .deeper (h.cons ht) hr⟩

/-- From the top level nothing that holds `p` is off the way down. -/
theorem goesDown_of_at? (hnested : outline.Nested) (hone : outline.Unambiguous p)
    (hs : outline.at? way = some s) (hp : p ∈ s.range) : GoesDown p outline way s := by
  induction way generalizing outline with
  | nil => contradiction
  | cons i way ih =>
    obtain ⟨t, ht, hts⟩ := Option.bind_eq_some_iff.1 hs
    have hsub : s.range ⊆ t.range := hnested.range_subset (at?_cons ht : _ = t.at? []) hts
    have hfirst : FirstAround p outline i t := hone.top.firstAround ht (hsub p hp)
    cases way with
    | nil =>
      obtain rfl : t = s := Option.some.inj hts
      exact .here hfirst
    | cons j way => exact .deeper hfirst (ih (Everywhere.children hnested ht) (hone.children ht) hts)

/-- Of two ways down the one that cannot go on is the longer. -/
theorem GoesDown.exists_append (h : GoesDown p level way s) {way' : List Nat}
    (h' : GoesDown p level way' r) (hr : ∀ child ∈ r.children, p ∉ child.range) :
    ∃ more, way' = way ++ more ∧ s.at? more = some r := by
  induction h generalizing way' with
  | here h =>
    cases h' with
    | here h' =>
      obtain ⟨rfl, rfl⟩ := h.unique h'
      exact ⟨[], rfl, rfl⟩
    | deeper h' hr' =>
      obtain ⟨rfl, rfl⟩ := h.unique h'
      exact ⟨_, rfl, at?_children hr'.at?_eq⟩
  | deeper h hs ih =>
    cases h' with
    | here h' =>
      obtain ⟨rfl, rfl⟩ := h.unique h'
      cases hs with
      | here hs => exact absurd hs.mem_range (hr _ (List.mem_of_getElem? hs.getElem?_eq))
      | deeper hs _ => exact absurd hs.mem_range (hr _ (List.mem_of_getElem? hs.getElem?_eq))
    | deeper h' hr' =>
      obtain ⟨rfl, rfl⟩ := h.unique h'
      obtain ⟨more, rfl, hmore⟩ := ih hr'
      exact ⟨more, rfl, hmore⟩

theorem locate_eq_none_iff : outline.locate p = none ↔ ∀ s ∈ outline, p ∉ s.range := by
  induction outline with
  | nil => simp [locate]
  | cons s outline ih =>
    rw [locate, List.forall_mem_cons, ← ih]
    by_cases hp : p ∈ s.range <;> simp [hp]

end Outline

mutual

/-- The innermost symbol is the symbol itself if no child holds `p`, and below it otherwise. -/
theorem Symbol.innermost_cases {p : Position} : ∀ s : Symbol,
    (∀ child ∈ (s.innermost p).children, p ∉ child.range) ∧
      (s.innermost p = s ∨ ∃ way, Outline.GoesDown p s.children way (s.innermost p))
  | ⟨name, range, children⟩ => by
    rw [Symbol.innermost]
    cases hchild : Outline.locate p children with
    | none => exact ⟨Outline.locate_eq_none_iff.1 hchild, .inl rfl⟩
    | some r =>
      obtain ⟨way, hway, hr⟩ := Outline.exists_goesDown_of_locate children hchild
      exact ⟨hr, .inr ⟨way, hway⟩⟩

/-- What the search finds is on the way down, at its end. -/
theorem Outline.exists_goesDown_of_locate {p : Position} : ∀ (outline : Outline) {r : Symbol},
    outline.locate p = some r →
      ∃ way, outline.GoesDown p way r ∧ ∀ child ∈ r.children, p ∉ child.range
  | [], _, h => nomatch h
  | s :: rest, r, h => by
    rw [Outline.locate] at h
    split at h
    · rename_i hp
      obtain rfl : s.innermost p = r := Option.some.inj h
      have hfirst : Outline.FirstAround p (s :: rest) 0 s := ⟨rfl, hp, by simp⟩
      obtain ⟨hend, hsame | ⟨way, hway⟩⟩ := s.innermost_cases (p := p)
      · exact ⟨[0], by rw [hsame]; exact .here hfirst, hend⟩
      · exact ⟨0 :: way, .deeper hfirst hway, hend⟩
    · rename_i hp
      obtain ⟨way, hway, hr⟩ := Outline.exists_goesDown_of_locate rest h
      obtain ⟨way, hway⟩ := hway.cons hp
      exact ⟨way, hway, hr⟩

end

namespace Outline

variable {p : Position} {outline : Outline} {r s : Symbol}

/-- The symbol that is found around a position holds it. -/
theorem mem_range_of_locate (h : outline.locate p = some r) : p ∈ r.range := by
  obtain ⟨_, hway, -⟩ := outline.exists_goesDown_of_locate h
  exact hway.mem_range

/-- A symbol is found unless no symbol of the top level holds the position. It is reached by going
down into the first symbol around the position on each level, and none of its children holds the
position. If children lie within their parents and no siblings hold the position both, every symbol
around the position is the one that is found or has it below, and its range around that one's. -/
theorem locate_innermost (outline : Outline) (p : Position) :
    (outline.locate p = none ↔ ∀ s ∈ outline, p ∉ s.range) ∧
    ∀ r, outline.locate p = some r → ∃ way, outline.GoesDown p way r ∧ p ∈ r.range ∧
      (∀ child ∈ r.children, p ∉ child.range) ∧
      (outline.Nested → outline.Unambiguous p →
        ∀ way' s, outline.at? way' = some s → p ∈ s.range →
          (∃ more, way = way' ++ more ∧ s.at? more = some r) ∧
            s.range.start ≤ r.range.start ∧ r.range.stop ≤ s.range.stop) := by
  refine ⟨locate_eq_none_iff, fun r hr => ?_⟩
  obtain ⟨way, hway, hend⟩ := outline.exists_goesDown_of_locate hr
  refine ⟨way, hway, hway.mem_range, hend, fun hnested hone way' s hs hp => ?_⟩
  obtain ⟨more, hmore, hsr⟩ := (goesDown_of_at? hnested hone hs hp).exists_append hway hend
  exact ⟨⟨more, hmore, hsr⟩, Range.le_of_subset (hnested.range_subset hs hsr) hway.mem_range⟩

/-- A position in the only child of a second child, behind the first one. -/
theorem locate_innermost_threeLevels :
    let inner : Symbol := ⟨"inner".toList, .ofLines 10 12, []⟩
    let middle : Symbol := ⟨"middle".toList, .ofLines 4 20, [inner]⟩
    let outline : Outline :=
      [⟨"outer".toList, .ofLines 0 30, [⟨"skip".toList, .ofLines 1 3, []⟩, middle]⟩]
    let p : Position := ⟨11, 4⟩
    outline.Nested ∧ outline.Unambiguous p ∧ outline.locate p = some inner ∧
      outline.at? [0, 1] = some middle ∧ p ∈ middle.range ∧
      ∃ way more, outline.GoesDown p way inner ∧ way = [0, 1] ++ more ∧
        middle.at? more = some inner ∧ middle.range.start ≤ inner.range.start := by
  intro inner middle outline p
  have hnested : outline.Nested := by
    simp only [Nested, outline, middle, inner, everywhere_cons_iff, List.forall_mem_cons]
    refine ⟨⟨?_, ?_, by simp⟩, ⟨by simp, everywhere_nil, ⟨?_, by simp⟩, ⟨by simp, everywhere_nil,
      everywhere_nil⟩, everywhere_nil⟩, everywhere_nil⟩
    all_goals exact Range.subset_of_le (by decide) (by decide)
  have hone : outline.Unambiguous p := by
    refine ⟨by decide, ?_⟩
    simp only [outline, middle, inner, everywhere_cons_iff]
    exact ⟨by decide, ⟨by decide, everywhere_nil, by decide, ⟨by decide, everywhere_nil,
      everywhere_nil⟩, everywhere_nil⟩, everywhere_nil⟩
  have hfound : outline.locate p = some inner := rfl
  have hmiddle : outline.at? [0, 1] = some middle := rfl
  have hp : p ∈ middle.range := by decide
  obtain ⟨way, hway, -, -, hwithin⟩ := (locate_innermost outline p).2 inner hfound
  obtain ⟨⟨more, hmore, hinner⟩, hstart, -⟩ := hwithin hnested hone [0, 1] middle hmiddle hp
  exact ⟨hnested, hone, hfound, hmiddle, hp, way, more, hway, hmore, hinner, hstart⟩

end Outline
end Logmark
