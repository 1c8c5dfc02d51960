import Logmark.Proofs.Fields
import Logmark.Statement.Entry

/-!
Normal forms of fields. A normalized value is on one line, with no blank at its ends and no space
beside a double colon, and normalizing leaves such a text as it is. Whatever order the spaces are
dropped in, the same text is left.
-/
namespace Logmark.Field

open Text Relation

variable {s value fallback : Text}

/-- The form of a field: one line with no blank at its ends, no space beside a double colon, and
not empty. -/
structure IsNormal (s : Text) : Prop where
  no_break : s.any isBreak = false
  trimmed : Trimmed s
  ne_nil : s ≠ []
  closed : IsClosed s

theorem ofText_of_isNormal (h : IsNormal s) (fallback : Text) : ofText s fallback = s := by
  rw [ofText_eq, h.trimmed.trim_eq, unbroken_of_no_break h.no_break, closeUp_of_isClosed h.closed,
    if_neg h.ne_nil]

theorem isNormal_ofText (value : Text) (h : IsNormal fallback) :
    IsNormal (ofText value fallback) := by
  have hbreak := any_isBreak_ofText value h.no_break
  rw [ofText_eq] at hbreak ⊢
  split
  · exact h
  · rename_i hne
    rw [if_neg hne] at hbreak
    have htrimmed := trimmed_unbroken (trimmed_trim value)
    exact ⟨hbreak, trimmed_of_closes (closes_closeUp _) htrimmed, hne, closeUp_closed _⟩

/-- A value that is not blank gives way to no fallback. -/
theorem ofText_of_not_blank (h : trim value ≠ []) (fallback : Text) :
    ofText value fallback = closeUp (unbroken (trim value)) := by
  rw [ofText_eq, if_neg]
  intro hnil
  have hblank : allBlank (closeUp (unbroken (trim value))) = true := by rw [hnil, allBlank_nil]
  rw [kept_of_closes Closes.allBlank_eq (closes_closeUp _), allBlank_unbroken,
    allBlank_trim] at hblank
  exact h (trim_eq_nil_iff.2 hblank)

/-- The texts that take the place of blank fields are normal forms themselves. -/
theorem isNormal_of_mem_fallbacks :
    ∀ s ∈ [unknownWorkspace, unknownFile, Symbol.unknownName], IsNormal s := by
  intro s hs
  rcases (by simpa using hs : s = unknownWorkspace ∨ s = unknownFile ∨ s = Symbol.unknownName)
    with rfl | rfl | rfl <;>
  exact ⟨by decide, by decide, by decide, by decide, by decide⟩

/-- The turns of closing up end, and what they leave is a normal form. If the value is not blank,
the field is its one line without some spaces, and all orders of dropping single spaces beside
double colons end in it. -/
theorem ofText_normalForm :
    (∀ fallback ∈ [unknownWorkspace, unknownFile, Symbol.unknownName], IsNormal fallback) ∧
    ∀ value fallback, IsNormal fallback →
      let line := unbroken (trim value)
      let field := ofText value fallback
      (∃ n ≤ line.count ' ', IsClosed (turn^[n] line) ∧ (∀ m < n, ¬ IsClosed (turn^[m] line)) ∧
          field = if turn^[n] line = [] then fallback else turn^[n] line) ∧
        IsNormal field ∧ ofText field fallback = field ∧
        (trim value ≠ [] → ReflTransGen Closes line field ∧
          field.Sublist line ∧ field.filter (· ≠ ' ') = line.filter (· ≠ ' ') ∧
          ∀ t, ReflTransGen Closes line t → (∀ u, ¬ Closes t u) → t = field) := by
  refine ⟨isNormal_of_mem_fallbacks, ?_⟩
  intro value fallback h line field
  have hnormal : IsNormal field := isNormal_ofText value h
  refine ⟨?_, hnormal, ofText_of_isNormal hnormal fallback, fun hvalue => ?_⟩
  · obtain ⟨n, hn, hopen, hturns⟩ := exists_turns line
    have hclosed : IsClosed (turn^[n] line) := hturns ▸ closeUp_closed line
    refine ⟨n, hn, hclosed, hopen, ?_⟩
    rw [← hturns]
    exact ofText_eq value fallback
  · have hfield : field = closeUp line := ofText_of_not_blank hvalue fallback
    have hcloses : ReflTransGen Closes line field := hfield ▸ closes_closeUp line
    refine ⟨hcloses, sublist_of_closes hcloses, kept_of_closes Closes.filter_eq hcloses,
      fun t ht hlast => ?_⟩
    exact closed_unique ht hcloses (isClosed_iff.2 hlast) hnormal.closed

/-- A value that takes two turns: the first space comes beside a double colon only when the second
one is dropped. -/
theorem ofText_normalForm_twoTurns :
    IsNormal unknownFile ∧ ofText "a : :: b\n".toList unknownFile = "a:::b".toList ∧
      IsNormal "a:::b".toList ∧ ∀ t, ReflTransGen Closes "a : :: b".toList t →
        (∀ u, ¬ Closes t u) → t = "a:::b".toList := by
  have hfallback : IsNormal unknownFile := ofText_normalForm.1 unknownFile (by decide)
  have hfield : ofText "a : :: b\n".toList unknownFile = "a:::b".toList := by decide +kernel
  obtain ⟨-, hnormal, -, hvalue⟩ := ofText_normalForm.2 "a : :: b\n".toList unknownFile hfallback
  obtain ⟨-, -, -, hall⟩ := hvalue (by decide)
  rw [hfield] at hnormal hall
  exact ⟨hfallback, hfield, hnormal, hall⟩

end Logmark.Field
