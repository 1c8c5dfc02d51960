import Logmark.Text.Numeral

/-!
Positions in a text and ranges between them. Lines and columns count from zero, columns count
characters. Positions are ordered by line, then by column; a range holds both of its ends.
-/
namespace Logmark

structure Position where
  line : Nat
  column : Nat
  deriving DecidableEq, Repr, Inhabited

namespace Position

instance : LE Position where
  le p q := p.line < q.line ∨ p.line = q.line ∧ p.column ≤ q.column

theorem le_def {p q : Position} :
    p ≤ q ↔ p.line < q.line ∨ p.line = q.line ∧ p.column ≤ q.column := Iff.rfl

instance (p q : Position) : Decidable (p ≤ q) := decidable_of_iff' _ le_def

theorem le_refl (p : Position) : p ≤ p := by
  rw [le_def]; omega

theorem le_trans {p q r : Position} (hpq : p ≤ q) (hqr : q ≤ r) : p ≤ r := by
  rw [le_def] at *; omega

theorem le_total (p q : Position) : p ≤ q ∨ q ≤ p := by
  rw [le_def, le_def]; omega

theorem le_antisymm {p q : Position} (hpq : p ≤ q) (hqp : q ≤ p) : p = q := by
  rw [le_def] at *
  cases p; cases q
  simp_all
  omega

end Position

/-- A span of positions. Its ends may stand in either order; a reversed range holds nothing. -/
structure Range where
  start : Position
  stop : Position
  deriving DecidableEq, Repr, Inhabited

namespace Range

instance : Membership Position Range where
  mem r p := r.start ≤ p ∧ p ≤ r.stop

theorem mem_def {p : Position} {r : Range} : p ∈ r ↔ r.start ≤ p ∧ p ≤ r.stop := Iff.rfl

instance (p : Position) (r : Range) : Decidable (p ∈ r) := decidable_of_iff' _ mem_def

/-- The range with the ends `p` and `q`, put in order. -/
def between (p q : Position) : Range := if p ≤ q then ⟨p, q⟩ else ⟨q, p⟩

/-- The range from the start of line `a` to the end of line `b`, the lines put in order. -/
def ofLines (a b : Nat) : Range := between ⟨a, 0⟩ ⟨b, maxCount⟩

/-- Whether the two ends are one position. -/
def isPoint (r : Range) : Bool := r.start = r.stop

theorem start_between_le (p q : Position) : (between p q).start ≤ (between p q).stop := by
  rw [between]
  split
  · assumption
  · exact (Position.le_total p q).resolve_left ‹_›

end Range
end Logmark
