import Logmark.Proofs.TextExtraction
import Logmark.Proofs.Trimming

/-!
The position of an offset. It is the position at the end of the text before the offset, and the
place that this position stands for is before the carriage returns at the end of that text. So the
way from offsets to positions and back loses these carriage returns, and loses them once only; a
position that comes behind no carriage return of its line is found again.
-/
namespace Logmark

namespace Text

variable {s t : Text} {ls : List Text}

/-- The position at the end of a text, the carriage returns at the end not counted. -/
def endPosition (s : Text) : Position :=
  ⟨s.count '\n', (withoutReturns (s.reverse.takeWhile (· != '\n')).reverse).length⟩

theorem count_terminate (h : FeedFree ls) : (terminate ls).count '\n' = ls.length := by
  induction ls with
  | nil => rfl
  | cons line ls ih =>
    obtain ⟨hline, hls⟩ := h.of_cons
    rw [terminate_cons, List.count_append, List.count_cons_self, List.count_eq_zero.2 hline, ih hls,
      List.length_cons, Nat.zero_add]

/-- On the normal form of a text its end is the end of the last line. -/
theorem endPosition_terminate_append (h : FeedFree ls) (ht : '\n' ∉ t) :
    endPosition (terminate ls ++ t) = ⟨ls.length, (withoutReturns t).length⟩ := by
  have hfree : ∀ c ∈ t.reverse, (c != '\n') = true := by
    intro c hc
    rw [bne_iff_ne]
    rintro rfl
    exact ht (List.mem_reverse.1 hc)
  have hstop : (terminate ls).reverse.takeWhile (· != '\n') = [] := by
    by_cases hls : ls = []
    · simp [hls]
    · have hlast := getLast?_terminate hls
      rw [← List.head?_reverse] at hlast
      obtain ⟨rest, hrest⟩ := List.head?_eq_some_iff.1 hlast
      rw [hrest]
      rfl
  rw [endPosition, List.count_append, count_terminate h, List.count_eq_zero.2 ht,
    List.reverse_append, List.takeWhile_append_of_pos hfree, hstop, List.append_nil,
    List.reverse_reverse]
  rfl

theorem withoutReturns_terminate_append (ls : List Text) (t : Text) :
    withoutReturns (terminate ls ++ t) = terminate ls ++ withoutReturns t := by
  induction ls with
  | nil => rfl
  | cons line ls ih =>
    rw [terminate_cons, List.append_assoc, List.cons_append, withoutReturns,
      dropEndWhile_append_cons (by decide), ← withoutReturns, ih]
    simp

@[simp] theorem withoutReturns_withoutReturns (s : Text) :
    withoutReturns (withoutReturns s) = withoutReturns s :=
  List.rdropWhile_idempotent _ s

/-- The end stays the same when the carriage returns there are dropped. -/
theorem endPosition_withoutReturns (s : Text) : endPosition (withoutReturns s) = endPosition s := by
  obtain ⟨ls, t, hls, ht, rfl⟩ := exists_eq_terminate_append s
  have ht' : '\n' ∉ withoutReturns t := fun hmem => ht ((withoutReturns_starts_self t).subset hmem)
  rw [withoutReturns_terminate_append, endPosition_terminate_append hls ht',
    endPosition_terminate_append hls ht, withoutReturns_withoutReturns]

/-- Where a text goes on, its end comes later or stays where it is. -/
theorem endPosition_le_endPosition (h : s <+: t) : endPosition s ≤ endPosition t := by
  obtain ⟨rest, rfl⟩ := h
  obtain ⟨ls, t, hls, ht, rfl⟩ := exists_eq_terminate_append s
  obtain ⟨ms, u, hms, hu, rfl⟩ := exists_eq_terminate_append rest
  rw [endPosition_terminate_append hls ht]
  cases ms with
  | nil =>
    have hrest : terminate ls ++ t ++ (terminate [] ++ u) = terminate ls ++ (t ++ u) := by simp
    rw [hrest, endPosition_terminate_append hls (by simp [ht, hu])]
    exact .inr ⟨rfl, (dropEndWhile_starts (List.prefix_append t u)).length_le⟩
  | cons m ms =>
    obtain ⟨hm, hms⟩ := hms.of_cons
    have hrest : terminate ls ++ t ++ (terminate (m :: ms) ++ u) =
        terminate (ls ++ (t ++ m) :: ms) ++ u := by
      simp
    have hfree : FeedFree (ls ++ (t ++ m) :: ms) :=
      hls.append (List.forall_mem_cons.2 ⟨by simp [ht, hm], hms⟩)
    rw [hrest, endPosition_terminate_append hfree hu]
    refine .inl ?_
    dsimp only
    rw [List.length_append, List.length_cons]
    omega

/-- The carriage return that ends a line is not reached by what is left of its start. -/
theorem withoutReturns_starts_dropReturn {line : Text} (h : t <+: line) :
    withoutReturns t <+: dropReturn line := by
  have hline : withoutReturns line <+: dropReturn line := by
    rw [← withoutReturns_dropReturn]
    exact withoutReturns_starts_self _
  exact (dropEndWhile_starts h).trans hline

/-- The end of a start of a text is on the line where the start ends. -/
theorem exists_lineAt_endPosition (h : s <+: t) :
    ∃ before line rest u, LineAt t before line rest ∧ u <+: line ∧ s = terminate before ++ u ∧
      endPosition s = ⟨before.length, (withoutReturns u).length⟩ := by
  obtain ⟨before, line, rest, u, hat, hu, rfl⟩ := exists_lineAt_of_starts h
  have hfree : '\n' ∉ u := fun hmem => hat.line_free (hu.subset hmem)
  exact ⟨before, line, rest, u, hat, hu, rfl, endPosition_terminate_append hat.before_free hfree⟩

end Text

open Text

namespace Document

variable {d : Document} {s before after : Text} {m n : Nat}

theorem positionAt_eq (d : Document) (n : Nat) :
    d.positionAt n = endPosition (takeWidth n d.text) := rfl

/-- The end of a start of the text is a position on a line of the document. -/
theorem line?_endPosition (h : s <+: d.text) :
    ∃ line, d.line? (endPosition s).line = some line ∧ (endPosition s).column ≤ line.length := by
  obtain ⟨lines, line, rest, t, hat, ht, -, hend⟩ := exists_lineAt_endPosition h
  rw [hend]
  refine ⟨dropReturn line, ?_, (withoutReturns_starts_dropReturn ht).length_le⟩
  exact line?_of_lineAt (p := ⟨lines.length, 0⟩) hat rfl

/-- The place of the end of a start of the text, before the carriage returns there. -/
theorem take_indexAt_endPosition (h : s <+: d.text) :
    d.text.take (d.indexAt (endPosition s)) = withoutReturns s := by
  obtain ⟨lines, line, rest, t, hat, ht, rfl, hend⟩ := exists_lineAt_endPosition h
  have hcolumn := List.prefix_iff_eq_take.1 (withoutReturns_starts_dropReturn ht)
  rw [hend, take_indexAt hat rfl, ← hcolumn, withoutReturns_terminate_append]

/-- From an offset to its position and back the carriage returns before the offset are lost. -/
theorem offsetAt_positionAt (d : Document) (n : Nat) :
    d.offsetAt (d.positionAt n) = width (withoutReturns (takeWidth n d.text)) := by
  rw [offsetAt, positionAt_eq, take_indexAt_endPosition (takeWidth_starts n d.text)]

theorem offsetAt_positionAt_le (d : Document) (n : Nat) :
    d.offsetAt (d.positionAt n) ≤ min n (width d.text) := by
  have hstarts := withoutReturns_starts_self (takeWidth n d.text)
  rw [offsetAt_positionAt]
  refine Nat.le_min.2 ⟨?_, ?_⟩
  · exact Nat.le_trans (width_le_of_starts hstarts) (width_takeWidth_le n d.text)
  · exact width_le_of_starts (hstarts.trans (takeWidth_starts n d.text))

/-- At a cut that comes behind no carriage return nothing is lost. -/
theorem offsetAt_positionAt_of_cutAt (h : CutAt d.text n before after)
    (hreturn : before.getLast? ≠ some '\r') : d.offsetAt (d.positionAt n) = n := by
  rw [offsetAt_positionAt, h.takeWidth_eq, withoutReturns_eq_self_iff.2 hreturn, h.width_eq]

/-- The position of an offset is the one at the end of the text before its place. -/
theorem positionAt_offsetAt_eq (d : Document) (p : Position) :
    d.positionAt (d.offsetAt p) = endPosition (d.text.take (d.indexAt p)) := by
  rw [positionAt_eq, takeWidth_offsetAt]

theorem positionAt_offsetAt_positionAt (d : Document) (n : Nat) :
    d.positionAt (d.offsetAt (d.positionAt n)) = d.positionAt n := by
  rw [positionAt_offsetAt_eq, positionAt_eq, take_indexAt_endPosition (takeWidth_starts n d.text),
    endPosition_withoutReturns]

theorem positionAt_le_positionAt (h : m ≤ n) : d.positionAt m ≤ d.positionAt n :=
  endPosition_le_endPosition (takeWidth_starts_takeWidth h d.text)

/-- Every offset, in the middle of a character or past the end too, has a position on a line of the
document. The offset of that position is at most the offset, and equal to it at a cut that comes
behind no carriage return; it has the same position; and later offsets have later positions or the
same ones. -/
theorem positionAt_retraction (d : Document) :
    (∀ n, (d.positionAt n).line < d.lineCount ∧
      ∃ line, d.line? (d.positionAt n).line = some line ∧ (d.positionAt n).column ≤ line.length) ∧
    (∀ n, d.offsetAt (d.positionAt n) ≤ min n (encode d.text).size) ∧
    (∀ n before after, CutAt d.text n before after → before.getLast? ≠ some '\r' →
      d.offsetAt (d.positionAt n) = n) ∧
    (∀ n, d.positionAt (d.offsetAt (d.positionAt n)) = d.positionAt n) ∧
    ∀ m n, m ≤ n → d.positionAt m ≤ d.positionAt n := by
  refine ⟨fun n => ?_, fun n => ?_, fun n before after => offsetAt_positionAt_of_cutAt,
    positionAt_offsetAt_positionAt d, fun m n => positionAt_le_positionAt⟩
  · obtain ⟨line, hline, hcolumn⟩ := line?_endPosition (takeWidth_starts n d.text)
    exact ⟨lt_lineCount_of_line? hline, line, hline, hcolumn⟩
  · rw [size_encode]
    exact offsetAt_positionAt_le d n

/-- An offset in the middle of a character, and the cut behind that character. -/
theorem positionAt_retraction_insideCharacter :
    let d := ofText "a\r\n👾é\r".toList
    CutAt d.text 7 "a\r\n👾".toList "é\r".toList ∧ "a\r\n👾".toList.getLast? ≠ some '\r' ∧
      d.offsetAt (d.positionAt 7) = 7 ∧ 5 ≤ 7 ∧ d.positionAt 5 ≤ d.positionAt 7 ∧
      d.positionAt 5 = ⟨1, 0⟩ ∧ d.positionAt 7 = ⟨1, 1⟩ := by
  intro d
  have hcut : CutAt d.text 7 "a\r\n👾".toList "é\r".toList := ⟨rfl, rfl⟩
  have hreturn : "a\r\n👾".toList.getLast? ≠ some '\r' := by decide
  obtain ⟨-, -, hsame, -, hordered⟩ := positionAt_retraction d
  exact ⟨hcut, hreturn, hsame 7 _ _ hcut hreturn, by decide, hordered 5 7 (by decide), rfl, rfl⟩

/-- A position on a line of the document comes back from its offset without the carriage returns
before it, so it is found again exactly if it does not come behind one. -/
theorem positionAt_offsetAt (d : Document) (p : Position) (hp : p.line < d.lineCount) :
    ∃ line, d.line? p.line = some line ∧ (p.column ≤ line.length →
      d.positionAt (d.offsetAt p) =
          ⟨p.line, (withoutReturns (line.take p.column)).length⟩ ∧
        (d.positionAt (d.offsetAt p) = p ↔ (line.take p.column).getLast? ≠ some '\r')) := by
  obtain ⟨lines, line, rest, hat, hl⟩ := exists_lineAt hp
  refine ⟨dropReturn line, line?_of_lineAt hat hl.symm, fun hcolumn => ?_⟩
  have hfree : '\n' ∉ (dropReturn line).take p.column :=
    fun hmem => not_mem_dropReturn hat.line_free (List.mem_of_mem_take hmem)
  have hposition : d.positionAt (d.offsetAt p) =
      ⟨p.line, (withoutReturns ((dropReturn line).take p.column)).length⟩ := by
    rw [positionAt_offsetAt_eq, take_indexAt hat hl.symm,
      endPosition_terminate_append hat.before_free hfree, hl]
  refine ⟨hposition, ?_⟩
  rw [hposition, ← withoutReturns_eq_self_iff]
  have hlength : ((dropReturn line).take p.column).length = p.column :=
    List.length_take_of_le hcolumn
  constructor
  · intro h
    have hsame : (withoutReturns ((dropReturn line).take p.column)).length = p.column :=
      congrArg Position.column h
    exact (withoutReturns_starts_self _).eq_of_length (hsame.trans hlength.symm)
  · intro h
    rw [h, hlength]

/-- The end of a line whose line break has a carriage return is found again. -/
theorem positionAt_offsetAt_lineEnd :
    let d := ofText "a\r\r\n👾é\r\n".toList
    let p : Position := ⟨1, 2⟩
    p.line < d.lineCount ∧ d.line? p.line = some "👾é".toList ∧ p.column ≤ "👾é".toList.length ∧
      d.offsetAt p = 10 ∧ d.positionAt (d.offsetAt p) = p := by
  intro d p
  have hp : p.line < d.lineCount := by decide
  have hcolumn : p.column ≤ "👾é".toList.length := by decide
  obtain ⟨line, hline, hback⟩ := positionAt_offsetAt d p hp
  obtain rfl : "👾é".toList = line := Option.some.inj hline
  exact ⟨hp, hline, hcolumn, rfl, (hback hcolumn).2.2 (by decide)⟩

/-- Behind a carriage return in the middle of a line the column before it is found. -/
theorem positionAt_offsetAt_behindReturn :
    let d := ofText "a\rb".toList
    let p : Position := ⟨0, 2⟩
    p.line < d.lineCount ∧ d.line? p.line = some "a\rb".toList ∧ p.column ≤ "a\rb".toList.length ∧
      d.positionAt (d.offsetAt p) = ⟨0, 1⟩ ∧ d.positionAt (d.offsetAt p) ≠ p := by
  decide

end Document
end Logmark
