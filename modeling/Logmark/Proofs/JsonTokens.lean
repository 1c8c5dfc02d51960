import Logmark.Proofs.JsonGrammar
import Logmark.Proofs.Numerals

/-!
The tokens of JSON are read and skipped as the grammar describes them: space, strings and numbers,
each up to where it ends and no further.
-/
namespace Logmark.Json

open Text

variable {s t w v rest body digits : Text} {c : Char} {n : Nat}

/-! ### Space -/

theorem isSpace_iff : isSpace c = true ↔ c ∈ [' ', '\n', '\t', '\r'] := by
  simp [isSpace, or_assoc]

theorem skipSpace_append (h : Spaces w) (s : Text) : skipSpace (w ++ s) = skipSpace s :=
  List.dropWhile_append_of_pos fun c hc => isSpace_iff.2 (h c hc)

theorem skipSpace_cons (h : c ∉ [' ', '\n', '\t', '\r']) (s : Text) : skipSpace (c :: s) = c :: s :=
  List.dropWhile_cons_of_neg (mt isSpace_iff.1 h)

theorem Spaces.nil : Spaces [] := nofun

theorem Spaces.skipSpace_eq_nil (h : Spaces w) : skipSpace w = [] := by
  have hskip := skipSpace_append h []
  rwa [List.append_nil] at hskip

theorem Spaces.ends (h : Spaces w) : Ends w :=
  fun c hc => List.mem_append_left [',', ']', '\x7d'] (h c (List.mem_of_mem_head? hc))

/-- Space before a value is skipped, and nothing of the value. -/
theorem Starts.skipSpace_append (h : Starts v) (hw : Spaces w) (s : Text) :
    skipSpace (w ++ (v ++ s)) = v ++ s := by
  obtain ⟨c, t, rfl, hc⟩ := h
  rw [Json.skipSpace_append hw]
  refine skipSpace_cons (fun hspace => hc ?_) _
  exact List.mem_append_left [',', ']', '\x7d'] hspace

theorem Starts.length_pos (h : Starts v) : 0 < v.length := by
  obtain ⟨c, t, rfl, -⟩ := h
  exact Nat.zero_lt_succ _

/-! ### Strings -/

theorem hexDigit?_of_isHex : ∀ n < 16, hexDigit? (Nat.digitChar n) = some n ∧
    hexDigit? (Nat.digitChar n).toUpper = some n := by
  decide

theorem IsHex.hexDigit? (h : IsHex n c) : hexDigit? c = some n := by
  obtain ⟨hlt, rfl | rfl⟩ := h
  · exact (hexDigit?_of_isHex n hlt).1
  · exact (hexDigit?_of_isHex n hlt).2

/-- Four digits are read as the unit that they write. -/
theorem IsUnit.unit? (h : IsUnit n digits) :
    ∃ a b c d, digits = [a, b, c, d] ∧ unit? a b c d = some n := by
  obtain ⟨ha, hb, hc, hd⟩ := h
  refine ⟨_, _, _, _, rfl, ?_⟩
  simp [Json.unit?, ha.hexDigit?, hb.hexDigit?, hc.hexDigit?, hd.hexDigit?]

theorem escaped?_of_mem : ∀ e ∈ letterEscapes, e.1 ≠ 'u' ∧ escaped? e.1 = some e.2 := by decide

theorem IsPlain.isControl (h : IsPlain c) : isControl c = false := by
  simpa [Json.isControl] using h.1

/-- No character has the code of a surrogate. -/
theorem not_isSurrogate_toNat (c : Char) :
    isLowSurrogate c.toNat = false ∧ isHighSurrogate c.toNat = false := by
  have hvalid : c.toNat < 0xd800 ∨ 0xdfff < c.toNat ∧ c.toNat < 0x110000 := c.valid
  simp only [isLowSurrogate, isHighSurrogate, Bool.and_eq_false_iff, decide_eq_false_iff_not]
  omega

/-- A character that is spelled is read. -/
theorem SpellsChar.readStringFrom {written : Text} (h : SpellsChar c written) (seen s : Text) :
    readStringFrom seen (written ++ s) = readStringFrom (c :: seen) s := by
  cases h with
  | plain hc =>
    have hcontrol := hc.isControl
    obtain ⟨-, hquote, hbackslash⟩ := hc
    rw [List.singleton_append, readStringFrom.eq_def]
    split <;> simp_all
  | @letter letter hmem =>
    obtain ⟨hu, hletter⟩ := escaped?_of_mem _ hmem
    rw [List.cons_append, List.cons_append, List.nil_append, readStringFrom.eq_def]
    simp [hletter]
  | unit hdigits =>
    obtain ⟨a, b, x, d, rfl, hunit⟩ := hdigits.unit?
    obtain ⟨hlow, hhigh⟩ := not_isSurrogate_toNat c
    simp [Json.readStringFrom, hunit, hlow, hhigh]
  | @pair i j high low hi hj hc hdigits hdigits' =>
    obtain ⟨a, b, x, d, rfl, hhigh⟩ := hdigits.unit?
    obtain ⟨a', b', x', d', rfl, hlow⟩ := hdigits'.unit?
    have hfirst : isLowSurrogate (0xd800 + i) = false ∧ isHighSurrogate (0xd800 + i) = true := by
      simp only [isLowSurrogate, isHighSurrogate, Bool.and_eq_false_iff, Bool.and_eq_true,
        decide_eq_false_iff_not, decide_eq_true_eq]
      omega
    have hsecond : isLowSurrogate (0xdc00 + j) = true := by
      simp only [isLowSurrogate, Bool.and_eq_true, decide_eq_true_eq]
      omega
    have hpaired : paired (0xd800 + i) (0xdc00 + j) = c := by
      rw [paired, Nat.add_sub_cancel_left, Nat.add_sub_cancel_left, ← hc, Char.ofNat_toNat]
    simp [Json.readStringFrom, hhigh, hlow, hfirst, hsecond, hpaired]

/-- A string is read as the text that it spells. -/
theorem Spells.readString (h : Spells t body) (s : Text) :
    readString (body ++ '"' :: s) = .ok (t, s) := by
  have hseen : ∀ seen, readStringFrom seen (body ++ '"' :: s) = .ok (seen.reverse ++ t, s) := by
    induction h with
    | nil => simp [readStringFrom]
    | cons hchar _ ih =>
      intro seen
      rw [List.append_assoc, hchar.readStringFrom, ih]
      simp
  exact hseen []

theorem IsBody.skipString (h : IsBody body) (s : Text) :
    skipString (body ++ '"' :: s) = .ok s := by
  induction h with
  | nil => rfl
  | plain hc _ ih =>
    have hcontrol := hc.isControl
    obtain ⟨-, hquote, hbackslash⟩ := hc
    rw [List.cons_append, skipString.eq_def]
    split <;> simp_all
  | letter hmem _ ih =>
    obtain ⟨hu, hletter⟩ := escaped?_of_mem _ hmem
    rw [List.cons_append, List.cons_append, skipString.eq_def]
    simp [hletter, ih]
  | unit hdigits _ ih =>
    obtain ⟨a, b, c, d, rfl, hunit⟩ := hdigits.unit?
    simp [Json.skipString, hunit, ih]

/-! ### Numbers -/

/-- No digit comes next. -/
def EndsDigits (s : Text) : Prop := ∀ c, s.head? = some c → c.isDigit = false

theorem Ends.head_ne (h : Ends s) (hc : c ∉ outside) : s.head? ≠ some c := fun hs => hc (h c hs)

theorem Ends.endsDigits (h : Ends s) : EndsDigits s := by
  have houtside : ∀ c ∈ outside, c.isDigit = false := by simp [outside]
  exact fun c hc => houtside c (h c hc)

theorem IsDigits.scanDigits (h : IsDigits digits) (hs : EndsDigits s) :
    Number.scanDigits (digits ++ s) = .ok (digits, s) := by
  obtain ⟨hne, hdigits⟩ := h
  obtain ⟨c, digits, rfl⟩ := List.exists_cons_of_ne_nil hne
  obtain ⟨hc, hdigits⟩ := List.forall_mem_cons.1 hdigits
  have hrest : s.takeWhile Char.isDigit = [] ∧ s.dropWhile Char.isDigit = s := by
    cases s with
    | nil => exact ⟨rfl, rfl⟩
    | cons d s =>
      have hd : ¬ d.isDigit = true := by simp [hs d rfl]
      exact ⟨List.takeWhile_cons_of_neg hd, List.dropWhile_cons_of_neg hd⟩
  rw [List.cons_append, Number.scanDigits, if_pos hc, List.takeWhile_append_of_pos hdigits,
    List.dropWhile_append_of_pos hdigits, hrest.1, hrest.2, List.append_nil]

namespace Number

theorem scanInteger_append (h : IsDigits digits)
    (hzero : digits.head? = some '0' → digits = ['0']) (hs : EndsDigits s) :
    scanInteger (digits ++ s) = .ok (digits, s) := by
  by_cases hd : digits.head? = some '0'
  · rw [hzero hd, List.singleton_append, scanInteger, if_neg]
    rw [Option.any_eq_true]
    rintro ⟨c, hc, hdigit⟩
    rw [hs c hc] at hdigit
    contradiction
  · obtain ⟨c, tail, rfl⟩ := List.exists_cons_of_ne_nil h.1
    have hscan := h.scanDigits hs
    rw [List.cons_append] at hscan ⊢
    rw [scanInteger, hscan]
    rintro _ ⟨⟩
    exact hd rfl

theorem IsFraction.scanFraction {fraction : Option Text} {written : Text}
    (h : IsFraction fraction written) (hs : EndsDigits s) (hpoint : s.head? ≠ some '.') :
    scanFraction (written ++ s) = .ok (fraction, s) := by
  cases h with
  | absent =>
    rw [List.nil_append, Number.scanFraction]
    rintro t rfl
    exact hpoint rfl
  | present hdigits =>
    rw [List.cons_append, Number.scanFraction, hdigits.scanDigits hs]
    rfl

theorem IsSign.scanSign {negative : Bool} {sign : Text} (h : IsSign negative sign)
    (hdigits : IsDigits digits) (s : Text) :
    scanSign (sign ++ (digits ++ s)) = (negative, digits ++ s) := by
  cases h with
  | absent =>
    obtain ⟨c, tail, rfl⟩ := List.exists_cons_of_ne_nil hdigits.1
    have hc := hdigits.2 c List.mem_cons_self
    rw [List.nil_append, List.cons_append, Number.scanSign]
    · rintro _ ⟨⟩
      contradiction
    · rintro _ ⟨⟩
      contradiction
  | plus => rfl
  | minus => rfl

theorem IsExponent.scanExponent {exponent : Option (Bool × Text)} {written : Text}
    (h : IsExponent exponent written) (hs : Ends s) :
    scanExponent (written ++ s) = .ok (exponent, s) := by
  cases h with
  | absent =>
    have hnone : ¬ (s.head? = some 'e' ∨ s.head? = some 'E') :=
      not_or_intro (hs.head_ne (by decide)) (hs.head_ne (by decide))
    rw [List.nil_append, Number.scanExponent, if_neg hnone]
  | @present e negative sign digits he hsign hdigits =>
    have hhead : (e :: (sign ++ digits) ++ s).head? = some 'e' ∨
        (e :: (sign ++ digits) ++ s).head? = some 'E' := by
      rcases he with rfl | rfl
      · exact .inl rfl
      · exact .inr rfl
    rw [Number.scanExponent, if_pos hhead, List.cons_append, List.tail_cons, List.append_assoc,
      hsign.scanSign hdigits]
    simp only [hdigits.scanDigits hs.endsDigits, bind, Except.bind]
    rfl

/-- A number is read to its end. -/
theorem IsWritten.scan {n : Number} (h : n.IsWritten v) (hs : Ends s) :
    scan (v ++ s) = .ok (n, s) := by
  obtain @⟨negative, integer, tail, tail', fraction, exponent, hinteger, hzero, hfraction,
    hexponent⟩ := h
  have hbehind : EndsDigits (tail' ++ s) ∧ (tail' ++ s).head? ≠ some '.' := by
    cases hexponent with
    | absent => exact ⟨hs.endsDigits, hs.head_ne (by decide)⟩
    | present he _ _ => rcases he with rfl | rfl <;> simp [EndsDigits]
  have hend : EndsDigits (tail ++ (tail' ++ s)) := by
    cases hfraction with
    | absent => exact hbehind.1
    | present _ => simp [EndsDigits]
  have hscan := scanInteger_append hinteger hzero hend
  have hfirst := hfraction.scanFraction hbehind.1 hbehind.2
  have hsecond := hexponent.scanExponent hs
  cases negative with
  | false =>
    have hsign : (integer ++ (tail ++ (tail' ++ s))).head? ≠ some '-' := by
      obtain ⟨c, rest, rfl⟩ := List.exists_cons_of_ne_nil hinteger.1
      have hc := hinteger.2 c List.mem_cons_self
      rintro ⟨⟩
      contradiction
    simp only [Number.scan, Bool.false_eq_true, if_false, List.nil_append, List.append_assoc, hsign,
      decide_false, hscan, hfirst, hsecond, bind, Except.bind]
    rfl
  | true =>
    simp only [Number.scan, if_true, List.append_assoc, List.cons_append, List.nil_append,
      List.head?_cons, decide_true, List.tail_cons, hscan, hfirst, hsecond, bind, Except.bind]
    rfl

theorem IsWritten.exists_cons {n : Number} (h : n.IsWritten v) :
    ∃ c t, v = c :: t ∧ (c = '-' ∨ c.isDigit = true) := by
  obtain @⟨negative, integer, tail, tail', _, _, hinteger, -, -, -⟩ := h
  cases negative with
  | true => exact ⟨'-', integer ++ (tail ++ tail'), rfl, .inl rfl⟩
  | false =>
    obtain ⟨c, rest, rfl⟩ := List.exists_cons_of_ne_nil hinteger.1
    exact ⟨c, rest ++ (tail ++ tail'), rfl, .inr (hinteger.2 c List.mem_cons_self)⟩

theorem IsWritten.starts {n : Number} (h : n.IsWritten v) : Starts v := by
  obtain ⟨c, t, rfl, hc⟩ := h.exists_cons
  have hother : ∀ d ∈ outside, d ≠ '-' ∧ d.isDigit = false := by simp [outside]
  refine ⟨c, t, rfl, fun hmem => ?_⟩
  obtain ⟨hminus, hdigit⟩ := hother c hmem
  rcases hc with rfl | hc
  · exact hminus rfl
  · rw [hdigit] at hc
    cases hc

end Number

theorem Number.IsWritten.skipNumber {n : Number} (h : n.IsWritten v) (hs : Ends s) :
    skipNumber (v ++ s) = .ok s := by
  rw [Json.skipNumber, h.scan hs]

/-! ### Counts -/

namespace Number

/-- A count in its digits. -/
def ofCount (n : Nat) : Number := ⟨false, numeral n, none, none⟩

theorem isWritten_numeral (n : Nat) : IsWritten (ofCount n) (numeral n) := by
  have hdigits : IsDigits (numeral n) := ⟨Nat.toDigits_ne_nil, fun _ => isDigit_of_mem_numeral⟩
  have hzero : (numeral n).head? = some '0' → numeral n = ['0'] := by
    rcases Nat.eq_zero_or_pos n with rfl | hpos
    · exact fun _ => rfl
    · obtain ⟨c, tail, hn, hc⟩ := numeral_of_pos hpos
      rw [hn]
      exact fun hhead => absurd (Option.some.inj hhead) hc
  have hwritten : IsWritten (ofCount n) ([] ++ (numeral n ++ ([] ++ []))) :=
    .parts hdigits hzero .absent .absent
  rwa [List.nil_append, List.append_nil, List.append_nil] at hwritten

theorem round53_le (n : Nat) : round53 n ≤ 2 * n := by
  rw [round53]
  split
  · omega
  rename_i hlarge
  have hne : n ≠ 0 := by
    rintro rfl
    exact hlarge (by decide)
  have hunit : Nat.pow 2 (n.log2 - 52) ≤ n :=
    Nat.le_trans (Nat.pow_le_pow_right (by decide) (Nat.sub_le _ _)) (Nat.log2_self_le hne)
  have hdiv : n / Nat.pow 2 (n.log2 - 52) * Nat.pow 2 (n.log2 - 52) ≤ n := Nat.div_mul_le_self _ _
  dsimp only
  split
  · rw [Nat.add_mul]
    omega
  · omega

/-- Digits of a count are all taken. -/
theorem absorb_eq (digits : Text) (n : Nat) (h : Nat.ofDigitChars 10 digits n ≤ maxCount) :
    absorb n digits = (Nat.ofDigitChars 10 digits n, []) := by
  induction digits generalizing n with
  | nil => rfl
  | cons c digits ih =>
    rw [Nat.ofDigitChars_cons, Nat.mul_comm] at h ⊢
    rw [absorb, if_pos (Nat.le_trans (le_ofDigitChars digits _) h), ih _ h]

theorem parts_ofCount (h : n ≤ maxCount) : (ofCount n).parts = (n, 0) := by
  have hvalue : Nat.ofDigitChars 10 (numeral n) 0 = n := Nat.ofDigitChars_ten_toDigits
  have habsorb := absorb_eq (numeral n) 0 (hvalue.symm ▸ h)
  rw [hvalue] at habsorb
  simp [parts, ofCount, habsorb, absorb]

/-- No count is too large for a floating-point number. -/
theorem isHuge_of_le_maxCount (h : n ≤ maxCount) : isHuge n 0 = false := by
  have hround := round53_le n
  have hone : round53 (Nat.pow 10 (0 : Int).toNat) = 1 := by decide
  have hlimit : 2 * maxCount < Nat.pow 2 1024 - Nat.pow 2 970 := by decide +kernel
  have hsmall : ¬ Nat.pow 2 1024 - Nat.pow 2 970 ≤
      round53 n * round53 (Nat.pow 10 (0 : Int).toNat) := by
    rw [hone]
    omega
  simp only [isHuge, hsmall]
  simp

theorem count?_ofCount (h : n ≤ maxCount) : (ofCount n).count? = some n :=
  count?_eq_some_iff.2 ⟨Nat.toDigits_ne_nil, fun _ => isDigit_of_mem_numeral,
    Nat.ofDigitChars_ten_toDigits, h⟩

end Number

theorem readNumber_numeral (h : n ≤ maxCount) (hs : Ends s) :
    readNumber (numeral n ++ s) = .ok (.ofCount n, s) := by
  rw [readNumber, (Number.isWritten_numeral n).scan hs]
  simp only [bind, Except.bind, Number.parts_ofCount h, Number.isHuge_of_le_maxCount h]
  rfl

end Logmark.Json
