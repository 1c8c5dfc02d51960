import Logmark.Proofs.ByteOffsets
import Logmark.Proofs.Places

/-!
The text that a range covers. Every position has an offset at which the text can be cut, and it cuts
no line break in two. Later positions have later offsets or the same ones, so what ranges with a
common end cover can be put together, and on one line a range covers characters of that line.
-/
namespace Logmark

open Text

namespace Text

/-- A cut between the carriage return and the line feed of one line break. -/
def SplitsBreak (before after : Text) : Prop :=
  before.getLast? = some '\r' ∧ after.head? = some '\n'

instance (before after : Text) : Decidable (SplitsBreak before after) :=
  inferInstanceAs (Decidable (_ ∧ _))

end Text

namespace Document

variable {d : Document} {p q r : Position} {before after line rest : Text}

theorem cutAt_offsetAt (d : Document) (p : Position) :
    CutAt d.text (d.offsetAt p) (d.text.take (d.indexAt p)) (d.text.drop (d.indexAt p)) :=
  cutAt_take d.text (d.indexAt p)

/-- The bytes before a position hold the characters before it. -/
theorem takeWidth_offsetAt (d : Document) (p : Position) :
    takeWidth (d.offsetAt p) d.text = d.text.take (d.indexAt p) :=
  (cutAt_offsetAt d p).takeWidth_eq

theorem offsetAt_le_offsetAt (h : p ≤ q) : d.offsetAt p ≤ d.offsetAt q :=
  width_le_of_starts (List.take_prefix_take_left (indexAt_le_indexAt h))

/-- A position on a line stands before the line break, and before its carriage return too. -/
theorem not_splitsBreak_indexAt (d : Document) (p : Position) :
    ¬ SplitsBreak (d.text.take (d.indexAt p)) (d.text.drop (d.indexAt p)) := by
  rintro ⟨hreturn, hfeed⟩
  cases Nat.lt_or_ge p.line d.lineCount with
  | inl hp =>
    obtain ⟨lines, line, rest, hline, hl⟩ := exists_lineAt hp
    obtain ⟨breaks, hafter, hbreaks⟩ := drop_indexAt hline hl.symm
    -- A line feed can only come next if the whole line comes before.
    have hfree : '\n' ∉ (dropReturn line).drop p.column ++ breaks := by
      intro hmem
      refine hline.line_free ?_
      rw [hbreaks]
      exact List.mem_append.2 ((List.mem_append.1 hmem).imp_left List.mem_of_mem_drop)
    have hnil : (dropReturn line).drop p.column ++ breaks = [] := by
      by_contra hne
      rw [hafter, ← List.append_assoc, List.head?_append_of_ne_nil _ hne] at hfeed
      exact hfree (List.mem_of_head? hfeed)
    obtain ⟨hdrop, rfl⟩ := List.append_eq_nil_iff.1 hnil
    rw [List.append_nil] at hbreaks
    rw [take_indexAt hline hl.symm, List.take_of_length_le (List.drop_eq_nil_iff.1 hdrop)]
      at hreturn
    have hlast := getLast?_of_terminate_append (by decide) hreturn
    rw [← hbreaks] at hlast
    exact dropReturn_eq_self_iff.1 hbreaks.symm hlast
  | inr hp =>
    rw [indexAt_of_lineCount_le hp, List.drop_length] at hfeed
    contradiction

theorem not_splitsBreak_offsetAt (h : CutAt d.text (d.offsetAt p) before after) :
    ¬ SplitsBreak before after := by
  obtain ⟨rfl, rfl⟩ := h.unique (cutAt_offsetAt d p)
  exact not_splitsBreak_indexAt d p

/-- A range covers the bytes between the offsets of its ends. -/
theorem encode_textIn_of_le (h : p ≤ q) :
    encode (d.textIn ⟨p, q⟩) = (encode d.text).extract (d.offsetAt p) (d.offsetAt q) := by
  have hbefore := take_append_textIn (d := d) h
  have htext : d.text =
      d.text.take (d.indexAt p) ++ d.textIn ⟨p, q⟩ ++ d.text.drop (d.indexAt q) := by
    rw [hbefore, List.take_append_drop]
  have hbytes := encode_of_append_append (d.text.take (d.indexAt p)) (d.textIn ⟨p, q⟩)
    (d.text.drop (d.indexAt q))
  rwa [← htext, hbefore] at hbytes

theorem encode_textIn (d : Document) (p q : Position) :
    encode (d.textIn ⟨p, q⟩) =
      (encode d.text).extract (min (d.offsetAt p) (d.offsetAt q))
        (max (d.offsetAt p) (d.offsetAt q)) := by
  cases Position.le_total p q with
  | inl hle =>
    have hoffset := offsetAt_le_offsetAt (d := d) hle
    rw [encode_textIn_of_le hle, Nat.min_eq_left hoffset, Nat.max_eq_right hoffset]
  | inr hle =>
    have hoffset := offsetAt_le_offsetAt (d := d) hle
    rw [textIn_comm, encode_textIn_of_le hle, Nat.min_eq_right hoffset, Nat.max_eq_left hoffset]

/-- Ranges that meet cover together what the range over both covers. -/
theorem textIn_append_textIn (hpq : p ≤ q) (hqr : q ≤ r) :
    d.textIn ⟨p, q⟩ ++ d.textIn ⟨q, r⟩ = d.textIn ⟨p, r⟩ := by
  refine (List.append_right_inj (d.text.take (d.indexAt p))).1 ?_
  rw [← List.append_assoc, take_append_textIn hpq, take_append_textIn hqr,
    take_append_textIn (Position.le_trans hpq hqr)]

/-- On one line a range covers the characters between its columns. -/
theorem textIn_of_lineAt {lines : List Text} (h : LineAt d.text lines line rest)
    (hp : p.line = lines.length) (hq : q.line = lines.length) (hpq : p.column ≤ q.column) :
    d.textIn ⟨p, q⟩ = ((dropReturn line).take q.column).drop p.column := by
  have hbefore := take_append_textIn (d := d) (.inr ⟨hp.trans hq.symm, hpq⟩ : p ≤ q)
  rw [take_indexAt h hp, take_indexAt h hq, List.append_assoc] at hbefore
  refine (List.append_right_inj ((dropReturn line).take p.column)).1 ?_
  rw [List.append_cancel_left hbefore]
  conv_lhs => rw [← List.take_append_drop p.column ((dropReturn line).take q.column),
    List.take_take, Nat.min_eq_left hpq]

/-- The columns of a range on one line are clamped to the length of the line. -/
theorem textIn_of_line_eq (hline : p.line = q.line) (hp : p.line < d.lineCount) :
    ∃ line, d.line? p.line = some line ∧
      let a := min p.column line.length
      let b := min q.column line.length
      d.textIn ⟨p, q⟩ = (line.take (max a b)).drop (min a b) := by
  obtain ⟨lines, line, rest, hat, hl⟩ := exists_lineAt hp
  refine ⟨dropReturn line, line?_of_lineAt hat hl.symm, ?_⟩
  intro a b
  have hclamp : d.textIn ⟨p, q⟩ = d.textIn ⟨⟨p.line, a⟩, ⟨q.line, b⟩⟩ := by
    rw [textIn, textIn, indexAt_clamp hat hl.symm, indexAt_clamp hat (hline ▸ hl.symm)]
  rw [hclamp]
  cases Nat.le_total a b with
  | inl hle =>
    rw [Nat.max_eq_right hle, Nat.min_eq_left hle]
    exact textIn_of_lineAt hat hl.symm (hline ▸ hl.symm) hle
  | inr hle =>
    rw [Nat.max_eq_left hle, Nat.min_eq_right hle, textIn_comm]
    exact textIn_of_lineAt hat (hline ▸ hl.symm) hl.symm hle

/-- Offsets are cuts of the text, none of them within a line break, and come in the order of their
positions. A range covers the bytes between the offsets of its ends, in whichever order they stand;
ranges that meet can be put together; and a range on one line covers characters of that line. -/
theorem textIn_between_cuts (d : Document) :
    (∀ p, String.Pos.Raw.IsValid (String.ofList d.text) ⟨d.offsetAt p⟩ ∧
      d.offsetAt p ≤ (encode d.text).size ∧
      ∀ before after, CutAt d.text (d.offsetAt p) before after → ¬ SplitsBreak before after) ∧
    (∀ p q, p ≤ q → d.offsetAt p ≤ d.offsetAt q) ∧
    (∀ p q, encode (d.textIn ⟨p, q⟩) = (encode d.text).extract
      (min (d.offsetAt p) (d.offsetAt q)) (max (d.offsetAt p) (d.offsetAt q))) ∧
    (∀ p q, d.textIn ⟨p, q⟩ = d.textIn ⟨q, p⟩) ∧
    (∀ p q r, p ≤ q → q ≤ r → d.textIn ⟨p, q⟩ ++ d.textIn ⟨q, r⟩ = d.textIn ⟨p, r⟩) ∧
    ∀ p q, p.line = q.line → p.line < d.lineCount → ∃ line, d.line? p.line = some line ∧
      let a := min p.column line.length
      let b := min q.column line.length
      d.textIn ⟨p, q⟩ = (line.take (max a b)).drop (min a b) := by
  refine ⟨fun p => ⟨?_, ?_, fun before after => not_splitsBreak_offsetAt⟩,
    fun p q => offsetAt_le_offsetAt, encode_textIn d, textIn_comm d,
    fun p q r => textIn_append_textIn, fun p q => textIn_of_line_eq⟩
  · exact isValid_iff.2 ⟨_, _, cutAt_offsetAt d p⟩
  · rw [size_encode]
    exact (cutAt_offsetAt d p).le_width

/-- A line that ends with a character of two bytes, up to a column past its end and on to a line past
the last one. -/
theorem textIn_between_cuts_pastEnd :
    let d := ofText "aé\r\n👾b\r".toList
    let p : Position := ⟨0, 1⟩
    let q : Position := ⟨0, 9⟩
    let r : Position := ⟨5, 0⟩
    p ≤ q ∧ q ≤ r ∧ p.line = q.line ∧ p.line < d.lineCount ∧
      CutAt d.text (d.offsetAt q) "aé".toList "\r\n👾b\r".toList ∧
      ¬ SplitsBreak "aé".toList "\r\n👾b\r".toList ∧ d.offsetAt q ≤ d.offsetAt r ∧
      d.textIn ⟨p, q⟩ = ['é'] ∧ d.textIn ⟨p, q⟩ ++ d.textIn ⟨q, r⟩ = d.textIn ⟨p, r⟩ := by
  intro d p q r
  have hpq : p ≤ q := by decide
  have hqr : q ≤ r := by decide
  have hp : p.line < d.lineCount := by decide
  have hcut : CutAt d.text (d.offsetAt q) "aé".toList "\r\n👾b\r".toList := ⟨rfl, rfl⟩
  obtain ⟨hoffset, hordered, -, -, hmeet, hline⟩ := textIn_between_cuts d
  obtain ⟨line, hl, hchars⟩ := hline p q rfl hp
  obtain rfl : "aé".toList = line := Option.some.inj hl
  exact ⟨hpq, hqr, rfl, hp, hcut, (hoffset q).2.2 _ _ hcut, hordered q r hqr, hchars,
    hmeet p q r hpq hqr⟩

end Document
end Logmark
