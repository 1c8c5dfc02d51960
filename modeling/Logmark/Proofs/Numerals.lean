import Logmark.Proofs.Trimming
import Logmark.Text.Numeral

/-!
Numerals and their values: which texts are read as counts, and what a written numeral holds.
-/
namespace Logmark.Text

variable {s : Text} {n : Nat}

theorem count?_eq_some_iff :
    count? s = some n ↔
      s ≠ [] ∧ (∀ c ∈ s, c.isDigit = true) ∧ Nat.ofDigitChars 10 s 0 = n ∧ n ≤ maxCount := by
  rw [count?]
  split
  · rename_i h
    have hdigits : ∀ c ∈ s, c.isDigit = true := List.all_eq_true.1 h.2
    by_cases hn : Nat.ofDigitChars 10 s 0 ≤ maxCount
    · simp only [hn, if_true, Option.some.injEq]
      constructor
      · rintro rfl
        exact ⟨h.1, hdigits, rfl, hn⟩
      · exact fun h' => h'.2.2.1
    · simp only [hn, if_false, reduceCtorEq, false_iff]
      rintro ⟨-, -, rfl, hle⟩
      exact hn hle
  · rename_i h
    simp only [reduceCtorEq, false_iff]
    rintro ⟨hne, hdigits, -⟩
    exact h ⟨hne, List.all_eq_true.2 hdigits⟩

/-- More digits make no smaller value. -/
theorem le_ofDigitChars (digits : Text) (n : Nat) : n ≤ Nat.ofDigitChars 10 digits n := by
  induction digits generalizing n with
  | nil => exact Nat.le_refl n
  | cons c digits ih =>
    rw [Nat.ofDigitChars_cons]
    exact Nat.le_trans (by omega) (ih _)

theorem isDigit_of_mem_numeral {c : Char} (h : c ∈ numeral n) : c.isDigit = true :=
  Nat.isDigit_of_mem_toDigits (by decide) (by decide) h

theorem exists_numeral_eq_cons (n : Nat) :
    ∃ c digits, numeral n = c :: digits ∧ c.isDigit = true := by
  obtain ⟨c, digits, hn⟩ := List.exists_cons_of_ne_nil (Nat.toDigits_ne_nil (n := n) (b := 10))
  exact ⟨c, digits, hn, isDigit_of_mem_numeral (n := n) (by simp [numeral, hn])⟩

/-- A numeral does not start with a zero, unless it is one. -/
theorem numeral_of_pos {n : Nat} (h : 0 < n) : ∃ c digits, numeral n = c :: digits ∧ c ≠ '0' := by
  induction n using Nat.strongRecOn with
  | ind n ih =>
    by_cases hlt : n < 10
    · rw [numeral, Nat.toDigits_of_lt_base hlt]
      have hdigit : ∀ d < 10, 0 < d → Nat.digitChar d ≠ '0' := by decide
      exact ⟨_, [], rfl, hdigit n hlt h⟩
    · obtain ⟨c, digits, hdigits, hc⟩ := ih (n / 10) (by omega) (by omega)
      rw [numeral] at hdigits
      refine ⟨c, digits ++ [(n % 10).digitChar], ?_, hc⟩
      rw [numeral, Nat.toDigits_of_base_le (by decide) (by omega), hdigits]
      rfl

theorem isBlank_of_isDigit {c : Char} (h : c.isDigit = true) : isBlank c = false := by
  simp only [Char.isDigit, Bool.and_eq_true, decide_eq_true_eq] at h
  obtain ⟨hlow, hhigh⟩ := h
  have hlow' : 48 ≤ c.toNat := hlow
  have hhigh' : c.toNat ≤ 57 := hhigh
  simp only [isBlank, blankRanges, List.any_cons, List.any_nil, Bool.or_false, Bool.or_eq_false_iff,
    Bool.and_eq_false_iff, decide_eq_false_iff_not]
  omega

theorem any_isBreak_numeral (n : Nat) : (numeral n).any isBreak = false := by
  rw [List.any_eq_false]
  intro c hc hbreak
  have hdigit := isDigit_of_mem_numeral hc
  rcases (by simpa [isBreak] using hbreak : c = '\n' ∨ c = '\r') with rfl | rfl <;>
    exact absurd hdigit (by decide)

end Logmark.Text
