import Logmark.Proofs.ClosingUp
import Logmark.Proofs.Cutting

/-!
The texts that can stand as fields of a message. A separator shares no more than one space with a
copy of itself, so a message splits after a text exactly if the text holds no separator and no
double colon that a space precedes ends it. Closing up a value makes it such a text.
-/
namespace Logmark.Field

open Text

variable {s t x y fallback : Text}

/-- The texts that a message can hold between separators. -/
structure IsField (s : Text) : Prop where
  not_blank : allBlank s = false
  no_separator : ¬ separator <:+: s
  no_open_end : ¬ " ::".toList <:+ s

/-- A piece at the end of the separator starts the separator only if it is the space. -/
theorem separator_overlap : ∀ n < 5, separator.drop n <+: " ::".toList →
    separator.drop n = [] ∨ separator.take n = " ::".toList := by
  decide

/-- A separator in `s` with a space and a double colon after it lies in `s` or ends after it. -/
theorem separator_infix_append_iff :
    separator <:+: s ++ " ::".toList ↔ separator <:+: s ∨ " ::".toList <:+ s := by
  rw [List.infix_append_iff]
  constructor
  · rintro (h | h | ⟨l, r, hsep, hl, hr⟩)
    · exact .inl h
    · exact absurd h (by decide)
    · have hlen : l.length < 5 := by
        have := congrArg List.length hsep
        rw [List.length_append, show separator.length = 4 from rfl] at this
        omega
      have hover := separator_overlap l.length hlen
      rw [hsep, List.drop_left, List.take_left] at hover
      cases hover hr with
      | inl hnil =>
        rw [hnil, List.append_nil] at hsep
        exact .inl (hsep ▸ hl.isInfix)
      | inr hopen => exact .inr (hopen ▸ hl)
  · rintro (h | h)
    · exact .inl h
    · exact .inr (.inr ⟨" ::".toList, [' '], rfl, h, ⟨"::".toList, rfl⟩⟩)

theorem splitOnce?_separator_eq_some_iff :
    splitOnce? separator s = some (x, y) ↔
      s = x ++ separator ++ y ∧ ¬ separator <:+: x ∧ ¬ " ::".toList <:+ x := by
  have hdrop : separator.dropLast = " ::".toList := rfl
  rw [splitOnce?_eq_some_iff (by decide), hdrop, separator_infix_append_iff, not_or]

/-- A text on one line: each line break is a space. -/
def unbroken (s : Text) : Text := s.map fun c => if c = '\n' ∨ c = '\r' then ' ' else c

theorem isBlank_unbroken (c : Char) :
    isBlank (if c = '\n' ∨ c = '\r' then ' ' else c) = isBlank c := by
  split
  · rename_i h
    rcases h with rfl | rfl <;> decide
  · rfl

theorem allBlank_unbroken (s : Text) : allBlank (unbroken s) = allBlank s := by
  simp only [allBlank, unbroken, List.all_map]
  exact congrArg (s.all ·) (funext isBlank_unbroken)

theorem trimmed_unbroken (h : Trimmed s) : Trimmed (unbroken s) := by
  constructor
  · intro c hc
    rw [unbroken, List.head?_map] at hc
    obtain ⟨d, hd, rfl⟩ := Option.map_eq_some_iff.1 hc
    rw [isBlank_unbroken, h.head d hd]
  · intro c hc
    rw [unbroken, List.getLast?_map] at hc
    obtain ⟨d, hd, rfl⟩ := Option.map_eq_some_iff.1 hc
    rw [isBlank_unbroken, h.last d hd]

theorem trim_unbroken (s : Text) : trim (unbroken s) = unbroken (trim s) := by
  obtain ⟨w, w', hw, hw', hs⟩ := exists_append_trim s
  have hcut : unbroken s = unbroken w ++ unbroken (trim s) ++ unbroken w' := by
    conv_lhs => rw [hs]
    simp only [unbroken, List.map_append]
  rw [hcut, trim_of_trimmed (by rwa [allBlank_unbroken]) (by rwa [allBlank_unbroken])
    (trimmed_unbroken (trimmed_trim s))]

theorem any_isBreak_unbroken (s : Text) : (unbroken s).any isBreak = false := by
  rw [List.any_eq_false]
  intro c hc
  obtain ⟨d, -, rfl⟩ := List.mem_map.1 hc
  by_cases hd : d = '\n' ∨ d = '\r'
  · rw [if_pos hd]
    decide
  · rw [if_neg hd]
    simpa [isBreak] using hd

theorem unbroken_of_no_break (h : s.any isBreak = false) : unbroken s = s := by
  rw [List.any_eq_false] at h
  refine (List.map_congr_left fun c hc => if_neg ?_).trans (List.map_id s)
  simpa [isBreak] using h c hc

/-- A normalized value is its trimmed line closed up, or the fallback if that leaves nothing. -/
theorem ofText_eq (value fallback : Text) :
    ofText value fallback =
      if closeUp (unbroken (trim value)) = [] then fallback
      else closeUp (unbroken (trim value)) := by
  rw [← trim_unbroken, ofText, ← unbroken]
  cases closeUp (trim (unbroken value)) <;> rfl

theorem isField_ofText (value : Text) (h : IsField fallback) : IsField (ofText value fallback) := by
  rw [ofText_eq]
  split
  · exact h
  · rename_i hne
    have htrimmed := trimmed_of_closes (closes_closeUp _) (trimmed_unbroken (trimmed_trim value))
    have hclosed := (closeUp_closed (unbroken (trim value))).1
    refine ⟨Bool.eq_false_iff.2 fun hblank => hne (htrimmed.eq_nil_of_allBlank hblank),
      fun hsep => hclosed ?_, fun hopen => hclosed hopen.isInfix⟩
    exact List.IsInfix.trans (by decide) hsep

/-- Line breaks do not get into a normalized value. -/
theorem any_isBreak_ofText (value : Text) (h : fallback.any isBreak = false) :
    (ofText value fallback).any isBreak = false := by
  rw [ofText_eq]
  split
  · exact h
  · rw [List.any_eq_false]
    intro c hc
    have hline := (sublist_of_closes (closes_closeUp _)).subset hc
    exact List.any_eq_false.1 (any_isBreak_unbroken (trim value)) c hline

end Logmark.Field
