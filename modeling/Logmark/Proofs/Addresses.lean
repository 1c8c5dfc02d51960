import Logmark.Position.Address
import Logmark.Proofs.Cutting
import Logmark.Proofs.Numerals
import Logmark.Proofs.Results

/-!
Addresses and what they name. A position is written by its line and column, both counted from one;
the reader accepts every way to write one and nothing else, and reads back the address that is
printed for a position.
-/
namespace Logmark

open Text

namespace Text

variable {s : Text} {n : Nat}

/-- How a number counted from one is written: as digits, perhaps with zeros before them and a plus
sign before those. -/
def WritesNumber (n : Nat) (s : Text) : Prop :=
  ∃ digits, (s = digits ∨ s = '+' :: digits) ∧ digits ≠ [] ∧ (∀ c ∈ digits, c.isDigit = true) ∧
    Nat.ofDigitChars 10 digits 0 = n ∧ 1 ≤ n ∧ n ≤ maxCount

theorem signedCount?_eq_some_iff :
    signedCount? s = some n ↔
      ∃ digits, (s = digits ∨ s = '+' :: digits) ∧ count? digits = some n := by
  rw [signedCount?.eq_def]
  split
  · rename_i digits
    constructor
    · exact fun h => ⟨digits, .inr rfl, h⟩
    · rintro ⟨_, rfl | hplus, h⟩
      · have hplus := (count?_eq_some_iff.1 h).2.1 '+' List.mem_cons_self
        contradiction
      · rwa [(List.cons.inj hplus).2]
  · rename_i hplus
    constructor
    · exact fun h => ⟨s, .inl rfl, h⟩
    · rintro ⟨digits, rfl | rfl, h⟩
      · exact h
      · exact absurd rfl (hplus digits)

theorem writesNumber_iff : WritesNumber n s ↔ signedCount? s = some n ∧ 1 ≤ n := by
  simp only [WritesNumber, signedCount?_eq_some_iff, count?_eq_some_iff]
  constructor
  · rintro ⟨digits, hs, hne, hdigits, hvalue, hpos, hle⟩
    exact ⟨⟨digits, hs, hne, hdigits, hvalue, hle⟩, hpos⟩
  · rintro ⟨⟨digits, hs, hne, hdigits, hvalue, hle⟩, hpos⟩
    exact ⟨digits, hs, hne, hdigits, hvalue, hpos, hle⟩

theorem writesNumber_numeral (hpos : 1 ≤ n) (hle : n ≤ maxCount) : WritesNumber n (numeral n) :=
  ⟨numeral n, .inl rfl, Nat.toDigits_ne_nil, fun _ => isDigit_of_mem_numeral,
    Nat.ofDigitChars_ten_toDigits, hpos, hle⟩

/-- A number is written with digits and the plus sign only. -/
theorem WritesNumber.isDigit_or_eq {c : Char} (h : WritesNumber n s) (hc : c ∈ s) :
    c.isDigit = true ∨ c = '+' := by
  obtain ⟨digits, rfl | rfl, -, hdigits, -⟩ := h
  · exact .inl (hdigits c hc)
  · exact (List.mem_cons.1 hc).symm.imp_left (hdigits c)

theorem WritesNumber.not_mem {c : Char} (h : WritesNumber n s) (hdigit : c.isDigit = false)
    (hplus : c ≠ '+') : c ∉ s := by
  intro hc
  rcases h.isDigit_or_eq hc with hdigit' | hplus'
  · exact absurd hdigit (by simp [hdigit'])
  · exact hplus hplus'

end Text

namespace Position

variable {p : Position} {s : Text}

/-- How a position is written: by its line alone, if its column is the first, or by its line and
its column with a colon between them. Both are counted from one. -/
inductive IsAddress (p : Position) : Text → Prop
  | line {a : Text} : WritesNumber (p.line + 1) a → p.column = 0 → IsAddress p a
  | lineColumn {a b : Text} : WritesNumber (p.line + 1) a → WritesNumber (p.column + 1) b →
      IsAddress p (a ++ ':' :: b)

/-- Reading succeeds where the line and the column are numbers counted from one. -/
theorem ofAddress_eq_ok_iff_parts {parts : Text × Text}
    (h : (splitOnce? [':'] (trim s)).getD (trim s, ['1']) = parts) :
    ofAddress s = .ok p ↔
      WritesNumber (p.line + 1) parts.1 ∧ WritesNumber (p.column + 1) parts.2 := by
  obtain ⟨line, column⟩ := parts
  simp only [writesNumber_iff, Nat.le_add_left, and_true]
  rw [ofAddress, h]
  dsimp only
  split
  · rename_i l c hl hc
    obtain ⟨line', column'⟩ := p
    simp [hl, hc]
  · rename_i m n hone hm hn
    simp only [reduceCtorEq, false_iff]
    rintro ⟨hl, hc⟩
    exact hone _ _ (Option.some.inj (hm.symm.trans hl)) (Option.some.inj (hn.symm.trans hc))
  · rename_i hnone
    simp only [reduceCtorEq, false_iff]
    rintro ⟨hl, hc⟩
    exact hnone _ _ hl hc

/-- The reader accepts exactly the addresses, with blanks around them, and finds the position. -/
theorem ofAddress_eq_ok_iff : ofAddress s = .ok p ↔ p.IsAddress (trim s) := by
  cases hsplit : splitOnce? [':'] (trim s) with
  | some parts =>
    obtain ⟨a, b⟩ := parts
    obtain ⟨hs, hcolon⟩ := splitOnce?_singleton_eq_some_iff.1 hsplit
    rw [ofAddress_eq_ok_iff_parts (by rw [hsplit])]
    constructor
    · rintro ⟨hline, hcolumn⟩
      rw [hs]
      exact .lineColumn hline hcolumn
    · intro h
      generalize trim s = t at hs h
      cases h with
      | line hline hzero =>
        exact absurd (hs ▸ by simp) (hline.not_mem (c := ':') (by decide) (by decide))
      | @lineColumn a' b' hline hcolumn =>
        have hcolon' : ':' ∉ a' := hline.not_mem (by decide) (by decide)
        have hsplit' := splitOnce?_singleton_eq_some_iff.2 ⟨hs, hcolon⟩
        rw [splitOnce?_singleton_eq_some_iff.2 ⟨rfl, hcolon'⟩] at hsplit'
        cases hsplit'
        exact ⟨hline, hcolumn⟩
  | none =>
    have hcolon := splitOnce?_singleton_eq_none_iff.1 hsplit
    rw [ofAddress_eq_ok_iff_parts (by rw [hsplit])]
    constructor
    · rintro ⟨hline, hcolumn⟩
      obtain ⟨hone, -⟩ := writesNumber_iff.1 hcolumn
      have hzero : p.column + 1 = 1 := (Option.some.inj hone).symm
      exact .line hline (by omega)
    · intro h
      generalize trim s = t at hcolon h
      cases h with
      | line hline hzero =>
        rw [hzero]
        exact ⟨hline, writesNumber_iff.2 ⟨rfl, Nat.le_refl 1⟩⟩
      | lineColumn hline hcolumn => exact absurd (by simp) hcolon

/-- The printed address of a position writes it. -/
theorem isAddress_address (hline : p.line < maxCount) (hcolumn : p.column < maxCount) :
    p.IsAddress p.address := by
  rw [address, nextCount, nextCount, Nat.min_eq_left hline, Nat.min_eq_left hcolumn]
  exact .lineColumn (writesNumber_numeral (by omega) hline)
    (writesNumber_numeral (by omega) hcolumn)

/-- An address holds digits, plus signs and colons only. -/
theorem IsAddress.not_mem {c : Char} (h : p.IsAddress s) (hdigit : c.isDigit = false)
    (hplus : c ≠ '+') (hcolon : c ≠ ':') : c ∉ s := by
  cases h with
  | line hline _ => exact hline.not_mem hdigit hplus
  | lineColumn hline hcolumn =>
    simp [hline.not_mem hdigit hplus, hcolumn.not_mem hdigit hplus, hcolon]

/-- No blank stands at the ends of an address. -/
theorem IsAddress.trim_eq (h : p.IsAddress s) : trim s = s := by
  have hblank : ∀ c ∈ s, isBlank c = false := by
    refine fun c hc => Bool.eq_false_iff.2 fun hblank => ?_
    have hplain : c.isDigit = false ∧ c ≠ '+' ∧ c ≠ ':' := by
      refine ⟨Bool.eq_false_iff.2 fun hdigit => ?_, ?_, ?_⟩
      · exact absurd hblank (by simp [isBlank_of_isDigit hdigit])
      · rintro rfl
        contradiction
      · rintro rfl
        contradiction
    exact h.not_mem hplain.1 hplain.2.1 hplain.2.2 hc
  exact Trimmed.trim_eq ⟨fun c hc => hblank c (List.mem_of_head? hc),
    fun c hc => hblank c (List.mem_of_getLast? hc)⟩

end Position

namespace Range

variable {p q : Position} {r : Range} {s : Text}

/-- How a range is written: by one position, which is both its ends, or by two with a hyphen between
them, blanks around each set aside. The ends of the range are in order. -/
inductive IsAddresses (r : Range) : Text → Prop
  | point {s : Text} {p : Position} : '-' ∉ s → p.IsAddress (trim s) → r = ⟨p, p⟩ →
      IsAddresses r s
  | span {a b : Text} {p q : Position} : '-' ∉ a → p.IsAddress (trim a) → q.IsAddress (trim b) →
      r.start ≤ r.stop → r = ⟨p, q⟩ ∨ r = ⟨q, p⟩ → IsAddresses r (a ++ '-' :: b)

/-- The two ends in order are the range between them. -/
theorem eq_between_iff :
    r = between p q ↔ r.start ≤ r.stop ∧ (r = ⟨p, q⟩ ∨ r = ⟨q, p⟩) := by
  constructor
  · rintro rfl
    refine ⟨start_between_le p q, ?_⟩
    rw [between]
    split
    · exact .inl rfl
    · exact .inr rfl
  · rintro ⟨hle, rfl | rfl⟩
    · exact (if_pos hle).symm
    · rw [between]
      split
      · rename_i hle'
        have hsame : p = q := Position.le_antisymm hle' hle
        rw [hsame]
      · rfl

/-- The reader accepts exactly the ranges that are written, and finds their ends. -/
theorem ofAddresses_eq_ok_iff : ofAddresses s = .ok r ↔ r.IsAddresses s := by
  rw [ofAddresses.eq_def]
  cases hsplit : splitOnce? ['-'] s with
  | some parts =>
    obtain ⟨first, last⟩ := parts
    obtain ⟨rfl, hhyphen⟩ := splitOnce?_singleton_eq_some_iff.1 hsplit
    dsimp only
    constructor
    · intro h
      obtain ⟨p, hp, h⟩ := bind_eq_ok h
      obtain ⟨q, hq, h⟩ := bind_eq_ok h
      obtain ⟨hle, hr⟩ := eq_between_iff.1 (Except.ok.inj h).symm
      exact .span hhyphen (Position.ofAddress_eq_ok_iff.1 hp) (Position.ofAddress_eq_ok_iff.1 hq)
        hle hr
    · generalize htext : first ++ '-' :: last = text at hsplit
      rintro (⟨hnone, -, -⟩ | ⟨hhyphen', hp, hq, hle, hr⟩)
      · exact absurd (htext ▸ by simp) hnone
      · rw [splitOnce?_singleton_eq_some_iff.2 ⟨rfl, hhyphen'⟩] at hsplit
        cases hsplit
        rw [Position.ofAddress_eq_ok_iff.2 hp, Position.ofAddress_eq_ok_iff.2 hq,
          eq_between_iff.2 ⟨hle, hr⟩]
        rfl
  | none =>
    have hhyphen := splitOnce?_singleton_eq_none_iff.1 hsplit
    dsimp only
    constructor
    · intro h
      obtain ⟨p, hp, h⟩ := bind_eq_ok h
      obtain ⟨-, hr⟩ := eq_between_iff.1 (Except.ok.inj h).symm
      exact .point hhyphen (Position.ofAddress_eq_ok_iff.1 hp) (hr.elim id id)
    · rintro (⟨-, hp, rfl⟩ | ⟨-, -, -, -⟩)
      · rw [Position.ofAddress_eq_ok_iff.2 hp]
        exact congrArg Except.ok (eq_between_iff.2 ⟨Position.le_refl _, .inl rfl⟩).symm
      · exact absurd (by simp) hhyphen

/-- Positions and ranges are read from exactly the texts that write them, and what is printed for
positions is read back, for two with a hyphen between them as the range from the earlier to the
later one. -/
theorem addresses_exact :
    (∀ (s : Text) (p : Position), Position.ofAddress s = .ok p ↔ p.IsAddress (trim s)) ∧
    (∀ (s : Text) (r : Range), ofAddresses s = .ok r ↔ r.IsAddresses s) ∧
    (∀ p : Position, p.line < maxCount → p.column < maxCount →
      Position.ofAddress p.address = .ok p) ∧
    ∀ p q : Position, p.line < maxCount → p.column < maxCount → q.line < maxCount →
      q.column < maxCount → ∃ r : Range, ofAddresses (p.address ++ '-' :: q.address) = .ok r ∧
        r.start ≤ r.stop ∧ (r = ⟨p, q⟩ ∨ r = ⟨q, p⟩) := by
  refine ⟨fun s p => Position.ofAddress_eq_ok_iff, fun s r => ofAddresses_eq_ok_iff,
    fun p hl hc => ?_, fun p q hpl hpc hql hqc => ?_⟩
  · have haddress := Position.isAddress_address hl hc
    exact Position.ofAddress_eq_ok_iff.2 (haddress.trim_eq.symm ▸ haddress)
  · have hp := Position.isAddress_address hpl hpc
    have hq := Position.isAddress_address hql hqc
    have hhyphen : '-' ∉ p.address := hp.not_mem (by decide) (by decide) (by decide)
    obtain ⟨hle, hr⟩ := eq_between_iff.1 (rfl : between p q = between p q)
    refine ⟨between p q, ofAddresses_eq_ok_iff.2 ?_, hle, hr⟩
    exact .span hhyphen (hp.trim_eq.symm ▸ hp) (hq.trim_eq.symm ▸ hq) hle hr

/-- A later position and one on the first line, as far to the right as an address can name, and an
address with all that may stand around its digits. -/
theorem addresses_exact_reversed :
    let p : Position := ⟨1, 8⟩
    let q : Position := ⟨0, maxCount - 1⟩
    p.line < maxCount ∧ p.column < maxCount ∧ q.line < maxCount ∧ q.column < maxCount ∧
      Position.ofAddress "\t+02:9 ".toList = .ok p ∧ Position.ofAddress q.address = .ok q ∧
      ofAddresses (p.address ++ '-' :: q.address) = .ok ⟨q, p⟩ := by
  intro p q
  have hpl : p.line < maxCount := by decide
  have hpc : p.column < maxCount := by decide
  have hql : q.line < maxCount := by decide
  have hqc : q.column < maxCount := by decide
  have hline : WritesNumber 2 "+02".toList := writesNumber_iff.2 (by decide)
  have hcolumn : WritesNumber 9 "9".toList := writesNumber_numeral (by decide) (by decide)
  have htrim : trim "\t+02:9 ".toList = "+02".toList ++ ':' :: "9".toList := by decide
  have hgiven : p.IsAddress (trim "\t+02:9 ".toList) := htrim ▸ .lineColumn hline hcolumn
  obtain ⟨hread, -, hback, hrange⟩ := addresses_exact
  obtain ⟨r, hr, hle, rfl | rfl⟩ := hrange p q hpl hpc hql hqc
  · exact absurd hle (by decide)
  · exact ⟨hpl, hpc, hql, hqc, (hread _ p).2 hgiven, hback q hql hqc, hr⟩

end Range
end Logmark
