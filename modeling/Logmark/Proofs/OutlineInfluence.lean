import Logmark.Proofs.Planning
import Logmark.Proofs.Worlds
import Logmark.Symbol.Store

/-!
What an outline has to do with an insertion. Plans for one target under two outlines fail alike or
select the same text, and their statements are read as the same but for the symbol, whatever the
names of the symbols are. Only the symbol that is found has a say at all.
-/
namespace Logmark

open Text

/-- Two plans that nothing can be told apart by except the symbol of the statement and its place. -/
inductive AlikeButForSymbol (tag : Tag) :
    Except InsertionError (Text × Entry) → Except InsertionError (Text × Entry) → Prop
  | failed (error : InsertionError) : AlikeButForSymbol tag (.error error) (.error error)
  | planned (selected : Text) {entry entry' : Entry} (s : Statement) (symbol : Text) :
    Statement.ofLine? tag entry.text = some s →
    Statement.ofLine? tag entry'.text = some { s with symbol } →
    AlikeButForSymbol tag (.ok (selected, entry)) (.ok (selected, entry'))

namespace Outline

/-- What the plan of an insertion asks an outline for: the name of the symbol around a position and
its last line. -/
def found (p : Position) (outline : Outline) : Option (Text × Nat) :=
  (outline.locate p).map fun s => (s.name, s.range.stop.line)

/-- An outline that cannot be read is as good as none. -/
theorem loadOrEmpty_of_not_readable {w : World} {path : Text}
    (h : ∀ text outline, w.readText? path = some text → ofJson text ≠ .ok outline) :
    (loadOrEmpty (some path) : StateM World Outline).run w = ([], w) := by
  have hload : (loadOrEmpty (some path) : StateM World Outline).run w =
      ((((Files.load (m := StateM World) ofJson path).run w).1.toOption).getD [],
        ((Files.load (m := StateM World) ofJson path).run w).2) := rfl
  rw [hload, World.run_load]
  cases htext : w.readText? path with
  | none => rfl
  | some text =>
    cases hread : ofJson text with
    | error fault =>
      dsimp only
      rw [hread]
      rfl
    | ok outline => exact absurd hread (h text outline htext)

end Outline

namespace Document

variable {d : Document} {target : Target}

/-- Entries for one selection under two outlines. -/
theorem ofLine?_text_entryFor {selected : Text} (context : InsertionContext)
    (h : allBlank selected = false) (outline : Outline) :
    Statement.ofLine? context.tag (entryFor target { context with outline } selected).text = some {
      Statement.ofSelection selected ⟨context.label, context.path, target.cursor.line⟩
        (outline.locate target.cursor) with expression := trim selected } :=
  (Statement.spells_text_ofSelection _ _ h).ofLine?

/-- Only the symbol that is found decides about an entry. -/
theorem entryFor_of_found {context : InsertionContext} {outline outline' : Outline}
    (h : outline.found target.cursor = outline'.found target.cursor) (selected : Text) :
    entryFor target { context with outline } selected =
      entryFor target { context with outline := outline' } selected := by
  have hname : (outline.locate target.cursor).map (·.name) =
      (outline'.locate target.cursor).map (·.name) := by
    simpa [Outline.found, Function.comp_def] using congrArg (Option.map Prod.fst) h
  have hstop : (outline.locate target.cursor).map (·.range.stop.line) =
      (outline'.locate target.cursor).map (·.range.stop.line) := by
    simpa [Outline.found, Function.comp_def] using congrArg (Option.map Prod.snd) h
  simp only [entryFor, Entry.ofSelection, Statement.ofSelection, hname, hstop]

/-- Of two plans under different outlines both fail in the same way or both succeed. Then they
select the same text, and their statements are read as the same in everything but the symbol. The
plans are the same altogether if one name and one last line are found, or nothing in both. An
outline that cannot be read is the empty one. -/
theorem planInsertion_withOutline (d : Document) (target : Target) (context : InsertionContext)
    (outline outline' : Outline) :
    AlikeButForSymbol context.tag (d.planInsertion target { context with outline })
        (d.planInsertion target { context with outline := outline' }) ∧
      (outline.found target.cursor = outline'.found target.cursor →
        d.planInsertion target { context with outline } =
          d.planInsertion target { context with outline := outline' }) ∧
      ∀ (w : World) (path : Text),
        (∀ text outline, w.readText? path = some text → Outline.ofJson text ≠ .ok outline) →
        (Outline.loadOrEmpty (some path) : StateM World Outline).run w = ([], w) := by
  refine ⟨?_, fun hfound => ?_, fun w path => Outline.loadOrEmpty_of_not_readable⟩
  · cases Nat.lt_or_ge target.cursor.line d.lineCount with
    | inl hlt =>
      rw [planInsertion_of_lt hlt, planInsertion_of_lt hlt]
      split
      · exact .failed _
      split
      · exact .failed _
      · rename_i hne _
        have hblank : allBlank (target.selected d) = false := by
          refine Bool.eq_false_iff.2 fun hblank => hne ?_
          exact (trimmed_selected d target).eq_nil_of_allBlank hblank
        exact .planned _ _ _ (ofLine?_text_entryFor context hblank outline)
          (ofLine?_text_entryFor context hblank outline')
    | inr hle =>
      rw [planInsertion_of_le hle, planInsertion_of_le hle]
      split
      · exact .failed _
      · exact .failed _
  · cases Nat.lt_or_ge target.cursor.line d.lineCount with
    | inl hlt =>
      rw [planInsertion_of_lt hlt, planInsertion_of_lt hlt, entryFor_of_found hfound]
    | inr hle => rw [planInsertion_of_le hle, planInsertion_of_le hle]

/-- A symbol whose name has all that fields are kept apart by, against no outline at all, and
against another symbol that is written the same. The plan succeeds, and what is left of the name
stays in its field. -/
theorem planInsertion_withOutline_tangled :
    let d := Document.ofText "f(a)\n\x7d\n".toList
    let target : Target := .expression 0 "a".toList
    let context : InsertionContext := ⟨[], "Repo".toList, "b/c.js".toList, .standard⟩
    let tangled : Symbol := ⟨"x :: \"\n".toList, .ofLines 0 1, []⟩
    let other : Symbol := ⟨"x :: \"\n".toList, .ofLines 0 1, [⟨[], .ofLines 1 1, []⟩]⟩
    let entry := entryFor target { context with outline := [tangled] } ['a']
    AlikeButForSymbol context.tag (d.planInsertion target { context with outline := [] })
        (d.planInsertion target { context with outline := [tangled] }) ∧
      d.planInsertion target { context with outline := [tangled] } =
        d.planInsertion target { context with outline := [other] } ∧
      d.planInsertion target { context with outline := [tangled] } = .ok (['a'], entry) ∧
      entry.text = "console.log(\"👾 Repo :: b/c.js :: x::\" :: 1 :: a:\", a);".toList ∧
      Statement.ofLine? .standard entry.text = some {
        label := "Repo".toList
        file := "b/c.js".toList
        symbol := "x::\"".toList
        line := 1
        shown := "a".toList
        expression := "a".toList } := by
  intro d target context tangled other entry
  refine ⟨(planInsertion_withOutline d target context [] [tangled]).1,
    (planInsertion_withOutline d target context [tangled] [other]).2.1 rfl, ?_⟩
  decide +kernel

end Document
end Logmark
