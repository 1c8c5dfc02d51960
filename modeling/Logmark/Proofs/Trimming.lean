import Mathlib.Data.List.DropRight
import Logmark.Text.Lines

/-!
Trimming. A text is its trimmed part between two runs of blanks. This determines the trimmed part,
so blanks can be added at both ends without changing it, and trimming a text leaves at least what
trimming its pieces leaves. The carriage returns at the end of a line are trimmed in the same way.
-/
namespace Logmark.Text

variable {p : Char → Bool} {s t : Text} {c : Char}

theorem dropEndWhile_append_of_all (h : ∀ c ∈ t, p c = true) :
    dropEndWhile p (s ++ t) = dropEndWhile p s := by
  have ht : ∀ c ∈ t.reverse, p c = true := fun c hc => h c (List.mem_reverse.1 hc)
  rw [dropEndWhile, List.reverse_append, List.dropWhile_append_of_pos ht, dropEndWhile]

/-- Dropping at the end stops at the last character that stays. -/
theorem dropEndWhile_append_cons (h : p c = false) :
    dropEndWhile p (s ++ c :: t) = s ++ c :: dropEndWhile p t := by
  induction t using List.reverseRecOn with
  | nil => simp [dropEndWhile, h]
  | append_singleton t d ih =>
    cases hd : p d with
    | true =>
      have hlast : ∀ e ∈ [d], p e = true := by simpa using hd
      rw [← List.cons_append, ← List.append_assoc, dropEndWhile_append_of_all hlast, ih,
        dropEndWhile_append_of_all hlast]
    | false => simp [dropEndWhile, hd]

theorem exists_append_dropEndWhile (p : Char → Bool) (s : Text) :
    ∃ t, (∀ c ∈ t, p c = true) ∧ s = dropEndWhile p s ++ t :=
  ⟨s.rtakeWhile p, fun _ => List.mem_rtakeWhile_imp, List.rdropWhile_append_rtakeWhile.symm⟩

/-- Where a text goes on, at least what dropping leaves of its start is left. -/
theorem dropEndWhile_starts (h : s <+: t) : dropEndWhile p s <+: dropEndWhile p t := by
  obtain ⟨rest, rfl⟩ := h
  induction rest using List.reverseRecOn with
  | nil => simp
  | append_singleton rest c ih =>
    rw [← List.append_assoc]
    cases hc : p c with
    | true => rwa [dropEndWhile_append_of_all (by simpa using hc)]
    | false =>
      rw [dropEndWhile_append_cons hc, List.append_assoc]
      exact (List.rdropWhile_prefix p s).trans (List.prefix_append s _)

/-- A line without the carriage returns at its end. -/
def withoutReturns (line : Text) : Text := dropEndWhile (· == '\r') line

theorem withoutReturns_starts_self (line : Text) : withoutReturns line <+: line :=
  List.rdropWhile_prefix _ line

theorem withoutReturns_eq_self_iff : withoutReturns s = s ↔ s.getLast? ≠ some '\r' := by
  cases List.eq_nil_or_concat s with
  | inl hnil => simp [hnil, withoutReturns, dropEndWhile]
  | inr hconcat =>
    obtain ⟨t, c, rfl⟩ := hconcat
    refine List.rdropWhile_eq_self_iff.trans ?_
    simp

theorem withoutReturns_of_not_mem (h : '\r' ∉ s) : withoutReturns s = s :=
  withoutReturns_eq_self_iff.2 fun hlast => h (List.mem_of_getLast? hlast)

theorem withoutReturns_dropReturn (line : Text) :
    withoutReturns (dropReturn line) = withoutReturns line := by
  rw [dropReturn]
  split
  · rename_i h
    conv_rhs => rw [← List.dropLast_append_getLast? _ h]
    exact (dropEndWhile_append_of_all (by simp)).symm
  · rfl

theorem allBlank_iff : allBlank s = true ↔ ∀ c ∈ s, isBlank c = true := List.all_eq_true

theorem allBlank_dropEndWhile (h : allBlank s = true) : allBlank (dropEndWhile p s) = true :=
  allBlank_iff.2 fun c hc => allBlank_iff.1 h c ((List.rdropWhile_prefix p s).subset hc)

@[simp] theorem allBlank_nil : allBlank [] = true := rfl

@[simp] theorem allBlank_cons : allBlank (c :: s) = (isBlank c && allBlank s) := rfl

@[simp] theorem allBlank_append : allBlank (s ++ t) = (allBlank s && allBlank t) :=
  List.all_append

theorem isBlank_of_isBreak {c : Char} (h : isBreak c = true) : isBlank c = true := by
  rcases (by simpa [isBreak] using h : c = '\n' ∨ c = '\r') with rfl | rfl <;> decide

theorem trimStart_append_of_allBlank (h : allBlank t = true) : trimStart (t ++ s) = trimStart s :=
  List.dropWhile_append_of_pos (allBlank_iff.1 h)

theorem trimStart_cons_of_not_isBlank (h : isBlank c = false) : trimStart (c :: s) = c :: s :=
  List.dropWhile_cons_of_neg (by simp [h])

theorem exists_append_trimStart (s : Text) :
    ∃ w, allBlank w = true ∧ s = w ++ trimStart s :=
  ⟨s.takeWhile isBlank, List.all_takeWhile, List.takeWhile_append_dropWhile.symm⟩

theorem trimEnd_append_of_allBlank (h : allBlank t = true) : trimEnd (s ++ t) = trimEnd s :=
  dropEndWhile_append_of_all (allBlank_iff.1 h)

theorem trimEnd_append_cons (h : isBlank c = false) : trimEnd (s ++ c :: t) = s ++ c :: trimEnd t :=
  dropEndWhile_append_cons h

theorem trimEnd_of_allBlank (h : allBlank s = true) : trimEnd s = [] :=
  List.rdropWhile_eq_nil_iff.2 (allBlank_iff.1 h)

theorem exists_append_trimEnd (s : Text) : ∃ w, allBlank w = true ∧ s = trimEnd s ++ w := by
  obtain ⟨w, hw, hs⟩ := exists_append_dropEndWhile isBlank s
  exact ⟨w, allBlank_iff.2 hw, hs⟩

/-- A text with no blank at either end. -/
structure Trimmed (s : Text) : Prop where
  head : ∀ c ∈ s.head?, isBlank c = false
  last : ∀ c ∈ s.getLast?, isBlank c = false

theorem trimmed_iff : Trimmed s ↔
    s.head?.all (!isBlank ·) = true ∧ s.getLast?.all (!isBlank ·) = true := by
  constructor
  · rintro ⟨hhead, hlast⟩
    simpa [Option.all_eq_true] using And.intro hhead hlast
  · rintro ⟨hhead, hlast⟩
    simp only [Option.all_eq_true, Bool.not_eq_true'] at hhead hlast
    exact ⟨hhead, hlast⟩

instance (s : Text) : Decidable (Trimmed s) := decidable_of_iff _ trimmed_iff.symm

/-- Whatever stands between two trimmed texts, the whole is trimmed. -/
theorem Trimmed.append {m : Text} (hs : Trimmed s) (ht : Trimmed t) (hs' : s ≠ []) (ht' : t ≠ []) :
    Trimmed (s ++ m ++ t) := by
  constructor
  · intro c hc
    rw [List.append_assoc, List.head?_append_of_ne_nil _ hs'] at hc
    exact hs.head c hc
  · intro c hc
    rw [List.getLast?_append_of_ne_nil _ ht'] at hc
    exact ht.last c hc

theorem Trimmed.eq_nil_of_allBlank (h : Trimmed s) (hs : allBlank s = true) : s = [] := by
  cases s with
  | nil => rfl
  | cons c s =>
    have hc : isBlank c = false := h.head c rfl
    rw [allBlank_cons, hc] at hs
    contradiction

theorem Trimmed.trimEnd_eq (h : Trimmed s) : trimEnd s = s := by
  refine List.rdropWhile_eq_self_iff.2 fun hs => ?_
  have := h.last _ (List.getLast?_eq_getLast_of_ne_nil hs)
  simp [this]

/-- The part of a text between two runs of blanks is its trimmed part. -/
theorem trim_of_trimmed {w w' : Text} (hw : allBlank w = true) (hw' : allBlank w' = true)
    (hs : Trimmed s) : trim (w ++ s ++ w') = s := by
  rw [trim, List.append_assoc, trimStart_append_of_allBlank hw]
  cases s with
  | nil =>
    have h := trimStart_append_of_allBlank (s := []) hw'
    rw [List.append_nil] at h
    rw [List.nil_append, h]
    rfl
  | cons c s =>
    rw [List.cons_append, trimStart_cons_of_not_isBlank (hs.head c rfl), ← List.cons_append,
      trimEnd_append_of_allBlank hw', hs.trimEnd_eq]

theorem Trimmed.trim_eq (h : Trimmed s) : trim s = s := by
  simpa using trim_of_trimmed allBlank_nil allBlank_nil h

theorem trimmed_trim (s : Text) : Trimmed (trim s) := by
  constructor
  · intro c hc
    -- The first character left by `trimStart` is no blank, and `trimEnd` keeps it if it keeps any.
    obtain ⟨w, -, hw⟩ := exists_append_trimEnd (trimStart s)
    have hne : trim s ≠ [] := by intro h; simp [h] at hc
    have hhead : (trimStart s).head? = some c := by
      rw [hw, ← trim, List.head?_append_of_ne_nil _ hne]
      exact hc
    have := List.head?_dropWhile_not isBlank s
    rw [trimStart] at hhead
    simpa [hhead] using this
  · intro c hc
    have hne : trim s ≠ [] := by intro h; simp [h] at hc
    have := List.rdropWhile_last_not isBlank (trimStart s) hne
    rw [List.getLast?_eq_getLast_of_ne_nil hne] at hc
    rw [← Option.mem_some.1 hc]
    exact Bool.eq_false_iff.2 this

theorem exists_append_trim (s : Text) :
    ∃ w w', allBlank w = true ∧ allBlank w' = true ∧ s = w ++ trim s ++ w' := by
  obtain ⟨w, hw, hs⟩ := exists_append_trimStart s
  obtain ⟨w', hw', ht⟩ := exists_append_trimEnd (trimStart s)
  refine ⟨w, w', hw, hw', ?_⟩
  rw [List.append_assoc, trim, ← ht]
  exact hs

theorem trim_sublist (s : Text) : (trim s).Sublist s := by
  obtain ⟨w, w', -, -, hs⟩ := exists_append_trim s
  conv_rhs => rw [hs]
  exact (List.sublist_append_right w _).trans (List.sublist_append_left _ w')

theorem trim_append_of_allBlank (h : allBlank t = true) : trim (s ++ t) = trim s := by
  obtain ⟨w, w', hw, hw', hs⟩ := exists_append_trim s
  have hwt : allBlank (w' ++ t) = true := by simp [hw', h]
  calc trim (s ++ t) = trim (w ++ trim s ++ (w' ++ t)) := by rw [← List.append_assoc, ← hs]
    _ = trim s := trim_of_trimmed hw hwt (trimmed_trim s)

theorem trim_allBlank_append (h : allBlank t = true) : trim (t ++ s) = trim s := by
  rw [trim, trimStart_append_of_allBlank h, trim]

theorem trim_eq_nil_iff : trim s = [] ↔ allBlank s = true := by
  constructor
  · intro h
    obtain ⟨w, w', hw, hw', hs⟩ := exists_append_trim s
    rw [hs, h]
    simp [hw, hw']
  · intro h
    simpa using trim_append_of_allBlank (s := []) h

@[simp] theorem allBlank_trim (s : Text) : allBlank (trim s) = allBlank s := by
  by_cases h : allBlank s = true
  · rw [trim_eq_nil_iff.2 h, h, allBlank_nil]
  · have hne : ¬ allBlank (trim s) = true := fun ht =>
      h (trim_eq_nil_iff.1 ((trimmed_trim s).eq_nil_of_allBlank ht))
    rw [Bool.eq_false_iff.2 h, Bool.eq_false_iff.2 hne]

/-- Nothing that trimming leaves of either piece is lost when the whole is trimmed. -/
theorem length_trim_add_le (s t : Text) :
    (trim s).length + (trim t).length ≤ (trim (s ++ t)).length := by
  by_cases hs : trim s = []
  · rw [trim_allBlank_append (trim_eq_nil_iff.1 hs), hs]
    simp
  by_cases ht : trim t = []
  · rw [trim_append_of_allBlank (trim_eq_nil_iff.1 ht), ht]
    simp
  obtain ⟨w, w', hw, hw', hs'⟩ := exists_append_trim s
  obtain ⟨v, v', hv, hv', ht'⟩ := exists_append_trim t
  have hmid : Trimmed (trim s ++ (w' ++ v) ++ trim t) :=
    (trimmed_trim s).append (trimmed_trim t) hs ht
  have hst : s ++ t = w ++ (trim s ++ (w' ++ v) ++ trim t) ++ v' := by
    conv_lhs => rw [hs', ht']
    simp only [List.append_assoc]
  rw [hst, trim_of_trimmed hw hv' hmid]
  simp only [List.length_append]
  omega

end Logmark.Text
