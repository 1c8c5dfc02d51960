import Mathlib.Data.List.Infix
import Logmark.Text.Split

/-!
Cuts of a text at a separator. A cut is any way to write the text around the separator, and the
first cut is the one before which no separator starts: none lies in the text before it, and none
begins there and runs into the separator of the cut.
-/
namespace Logmark.Text

variable {sep s t x y : Text}

theorem isPrefixOf?_eq_some_iff : sep.isPrefixOf? s = some t ↔ s = sep ++ t := by
  induction sep generalizing s with
  | nil => simp [List.isPrefixOf?, eq_comm]
  | cons c sep ih =>
    cases s with
    | nil => simp [List.isPrefixOf?]
    | cons d s =>
      by_cases h : c = d
      · simp [List.isPrefixOf?, h, ih]
      · simp [List.isPrefixOf?, h, Ne.symm h]

theorem isSuffixOf?_eq_some_iff : sep.isSuffixOf? s = some t ↔ s = t ++ sep := by
  rw [List.isSuffixOf?, Option.map_eq_some_iff]
  constructor
  · rintro ⟨r, hr, rfl⟩
    have h := congrArg List.reverse (isPrefixOf?_eq_some_iff.1 hr)
    simpa using h
  · rintro rfl
    exact ⟨t.reverse, isPrefixOf?_eq_some_iff.2 (by simp), by simp⟩

theorem mem_cuts_go_nil {seen : Text} :
    (x, y) ∈ cuts.go sep seen [] ↔ x = seen.reverse ∧ [] = sep ++ y := by
  rw [cuts.go, ← isPrefixOf?_eq_some_iff]
  cases sep.isPrefixOf? [] with
  | some after => simp [eq_comm]
  | none => simp

theorem mem_cuts_go_cons {seen : Text} {c : Char} :
    (x, y) ∈ cuts.go sep seen (c :: s) ↔
      x = seen.reverse ∧ c :: s = sep ++ y ∨ (x, y) ∈ cuts.go sep (c :: seen) s := by
  rw [cuts.go, ← isPrefixOf?_eq_some_iff]
  cases sep.isPrefixOf? (c :: s) with
  | some after => simp [eq_comm]
  | none => simp

/-- The cuts of `s`, each with the characters before `s` added. -/
theorem mem_cuts_go_iff {seen : Text} :
    (x, y) ∈ cuts.go sep seen s ↔ ∃ x', x = seen.reverse ++ x' ∧ s = x' ++ sep ++ y := by
  induction s generalizing seen with
  | nil =>
    rw [mem_cuts_go_nil]
    constructor
    · rintro ⟨rfl, h⟩
      exact ⟨[], by simp, by simpa using h⟩
    · rintro ⟨x', rfl, h⟩
      simp_all
  | cons c s ih =>
    rw [mem_cuts_go_cons, ih]
    constructor
    · rintro (⟨rfl, h⟩ | ⟨x', rfl, rfl⟩)
      · exact ⟨[], by simp, by simpa using h⟩
      · exact ⟨c :: x', by simp, by simp⟩
    · rintro ⟨x', rfl, h⟩
      cases x' with
      | nil => exact .inl ⟨by simp, by simpa using h⟩
      | cons d x' =>
        obtain ⟨rfl, rfl⟩ := List.cons.inj h
        exact .inr ⟨x', by simp, rfl⟩

@[simp] theorem mem_cuts_iff : (x, y) ∈ cuts sep s ↔ s = x ++ sep ++ y := by
  rw [cuts, mem_cuts_go_iff]
  simp

theorem length_le_of_mem_cuts_go {seen : Text} (h : (x, y) ∈ cuts.go sep seen s) :
    seen.length ≤ x.length := by
  obtain ⟨x', rfl, -⟩ := mem_cuts_go_iff.1 h
  simp

/-- The first cut has the shortest text before the separator. -/
theorem length_le_of_head?_cuts_go {seen x' y' : Text}
    (h : (cuts.go sep seen s).head? = some (x, y)) (h' : (x', y') ∈ cuts.go sep seen s) :
    x.length ≤ x'.length := by
  induction s generalizing seen with
  | nil =>
    have hx := (mem_cuts_go_nil.1 (List.mem_of_head? h)).1
    rw [hx, (mem_cuts_go_nil.1 h').1]
  | cons c s ih =>
    have hseen := length_le_of_mem_cuts_go h'
    rw [cuts.go] at h h'
    cases hp : sep.isPrefixOf? (c :: s) with
    | some after =>
      rw [hp] at h
      obtain ⟨rfl, rfl⟩ : seen.reverse = x ∧ after = y := by simpa using h
      simpa using hseen
    | none =>
      rw [hp] at h h'
      exact ih h h'

/-- A text is split at the separator that no other one comes before. An earlier one would lie in
what precedes the last character of this one. -/
theorem splitOnce?_eq_some_iff (hsep : sep ≠ []) :
    splitOnce? sep s = some (x, y) ↔ s = x ++ sep ++ y ∧ ¬ sep <:+: x ++ sep.dropLast := by
  have hlen : 0 < sep.length := List.length_pos_iff.2 hsep
  constructor
  · intro h
    rw [splitOnce?_eq_head?] at h
    have hs : s = x ++ sep ++ y := mem_cuts_iff.1 (List.mem_of_head? h)
    refine ⟨hs, ?_⟩
    rintro ⟨x', z, hz⟩
    have hcut : s = x' ++ sep ++ (z ++ sep.getLast hsep :: y) := by
      rw [hs, ← List.append_assoc, hz]
      conv_lhs => rw [← List.dropLast_append_getLast hsep]
      simp
    have hle := length_le_of_head?_cuts_go h (mem_cuts_iff.2 hcut)
    have hz' := congrArg List.length hz
    simp only [List.length_append, List.length_dropLast] at hz'
    omega
  · rintro ⟨hs, hno⟩
    have hmem : (x, y) ∈ cuts sep s := mem_cuts_iff.2 hs
    obtain ⟨⟨x', y'⟩, hhead⟩ : ∃ first, (cuts sep s).head? = some first :=
      Option.isSome_iff_exists.1 (by simpa using List.ne_nil_of_mem hmem)
    have hle := length_le_of_head?_cuts_go hhead hmem
    have hs' : s = x' ++ sep ++ y' := mem_cuts_iff.1 (List.mem_of_head? hhead)
    rw [splitOnce?_eq_head?, hhead]
    cases Nat.lt_or_eq_of_le hle with
    | inl hlt =>
      have hfirst : x' ++ sep <+: s := ⟨y', hs'.symm⟩
      have hbefore : x ++ sep.dropLast <+: s := by
        rw [hs, List.append_assoc]
        exact (List.prefix_append_right_inj x).2
          ((List.dropLast_prefix sep).trans (List.prefix_append sep y))
      have hpre : x' ++ sep <+: x ++ sep.dropLast := by
        refine List.prefix_of_prefix_length_le hfirst hbefore ?_
        simp only [List.length_append, List.length_dropLast]
        omega
      exact absurd ((List.suffix_append x' sep).isInfix.trans hpre.isInfix) hno
    | inr heq =>
      have hparts : x' ++ (sep ++ y') = x ++ (sep ++ y) := by
        rw [← List.append_assoc, ← List.append_assoc, ← hs', hs]
      obtain ⟨rfl, hrest⟩ := List.append_inj hparts heq
      rw [List.append_cancel_left hrest]

/-- A text is split at a character where it stands first. -/
theorem splitOnce?_singleton_eq_some_iff {c : Char} :
    splitOnce? [c] s = some (x, y) ↔ s = x ++ c :: y ∧ c ∉ x := by
  have hinfix : [c] <:+: x ↔ c ∈ x :=
    ⟨fun h => h.subset List.mem_cons_self, fun h => by
      obtain ⟨before, after, rfl⟩ := List.append_of_mem h
      exact ⟨before, after, by simp⟩⟩
  rw [splitOnce?_eq_some_iff (List.cons_ne_nil c []), List.dropLast_singleton, List.append_nil,
    hinfix, List.append_assoc, List.singleton_append]

theorem splitOnce?_singleton_eq_none_iff {c : Char} : splitOnce? [c] s = none ↔ c ∉ s := by
  constructor
  · intro h hc
    obtain ⟨before, after, rfl, hbefore⟩ := List.eq_append_cons_of_mem hc
    rw [splitOnce?_singleton_eq_some_iff.2 ⟨rfl, hbefore⟩] at h
    contradiction
  · intro hc
    refine Option.eq_none_iff_forall_not_mem.2 fun parts h => hc ?_
    obtain ⟨rfl, -⟩ := splitOnce?_singleton_eq_some_iff.1 h
    simp

/-- The pieces of a text are what splitting it at the characters of the class leaves. -/
theorem pieces_eq_splitOnP (isSep : Char → Bool) (s : Text) :
    pieces isSep s = s.splitOnP isSep := by
  induction s with
  | nil => exact List.splitOnP_nil.symm
  | cons c s ih => rw [pieces_cons, ih, List.splitOnP_cons_eq_if_modifyHead]

theorem pieces_of_forall_not {isSep : Char → Bool} (h : ∀ c ∈ s, isSep c = false) :
    pieces isSep s = [s] := by
  rw [pieces_eq_splitOnP, List.splitOnP_eq_singleton h]

/-- A separating character ends one piece and starts another. -/
theorem pieces_append {isSep : Char → Bool} {c : Char} (hc : isSep c = true) (x y : Text) :
    pieces isSep (x ++ c :: y) = pieces isSep x ++ pieces isSep y := by
  simp only [pieces_eq_splitOnP, List.splitOnP_append_cons x y hc]

/-- The first piece goes up to the first separating character. -/
theorem pieces_append_cons {isSep : Char → Bool} {c : Char} (h : ∀ c ∈ x, isSep c = false)
    (hc : isSep c = true) (y : Text) : pieces isSep (x ++ c :: y) = x :: pieces isSep y := by
  rw [pieces_append hc, pieces_of_forall_not h]
  rfl

theorem isSep_of_mem_pieces {isSep : Char → Bool} (h : x ∈ pieces isSep s) :
    ∀ c ∈ x, isSep c = false := by
  induction s generalizing x with
  | nil => simp_all
  | cons c s ih =>
    rw [pieces_cons] at h
    cases hc : isSep c with
    | true =>
      rw [if_pos hc] at h
      rcases List.mem_cons.1 h with rfl | h
      · exact List.forall_mem_nil _
      · exact ih h
    | false =>
      rw [if_neg (Bool.eq_false_iff.1 hc)] at h
      cases hpieces : pieces isSep s with
      | nil => simp [hpieces] at h
      | cons first rest =>
        rw [hpieces, List.modifyHead_cons] at h
        rcases List.mem_cons.1 h with rfl | h
        · exact List.forall_mem_cons.2 ⟨hc, ih (by simp [hpieces])⟩
        · exact ih (by simp [hpieces, h])

/-- Either no character separates, or there is a first one that does. -/
theorem exists_first_sep (isSep : Char → Bool) (s : Text) :
    (∀ c ∈ s, isSep c = false) ∨
      ∃ x c y, s = x ++ c :: y ∧ (∀ d ∈ x, isSep d = false) ∧ isSep c = true := by
  cases hfind : s.find? isSep with
  | none => exact .inl (by simpa using hfind)
  | some c =>
    obtain ⟨hc, x, y, hs, hx⟩ := List.find?_eq_some_iff_append.1 hfind
    exact .inr ⟨x, c, y, hs, by simpa using hx, hc⟩

end Logmark.Text
