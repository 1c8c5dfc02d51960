import Logmark.Proofs.Inserting
import Logmark.Proofs.Planning
import Logmark.Proofs.RepeatedRemoval
import Mathlib.Data.List.Perm.Basic

/-!
Sessions: statements of several tags are put into a text one after the other, each into the text
that the one before has left, and then the statements of each tag are removed. The invariant of a
session is that removing all tags at once gives back the text it started with; removing the tags one
after the other, in any order, is the same.
-/
namespace Logmark

open Text

/-- A text under work, and the tags of the statements that were put into it, latest first. -/
structure Session where
  text : Text
  made : List Tag

/-- An insertion that is asked for: what is pointed at and what the statement is made with. -/
structure Request where
  target : Target
  context : InsertionContext

namespace Session

/-- Puts one statement into the text. If that cannot be planned, the text stays as it is. -/
def insert (s : Session) (r : Request) : Session :=
  match (Document.ofText s.text).planInsertion r.target r.context with
  | .ok (_, entry) =>
    ⟨((Document.ofText s.text).insertEntry entry).text, r.context.tag :: s.made⟩
  | .error _ => s

def run (s : Session) (requests : List Request) : Session := requests.foldl insert s

end Session

namespace Removal

/-- Removes the statements of one tag after the other. Gives the text that is left and how many
statements each removal reports. -/
def inTurn : List Tag → Text → Text × List Nat
  | [], s => (s, [])
  | tag :: tags, s =>
    let removal := ofText tag s
    let rest := inTurn tags removal.text
    (rest.1, removal.removed :: rest.2)

/-- Whether a line is a statement of one of the tags. -/
def isLineOfAny (tags : List Tag) (line : Text) : Bool := tags.any (Statement.isLine · line)

theorem lineTest_isLineOfAny (tags : List Tag) : LineTest (isLineOfAny tags) := by
  induction tags with
  | nil => exact .none
  | cons tag tags ih => exact (lineTest_isLine tag).or ih

/-- Removing in turn is removing at once, and no removal takes a statement of another tag. -/
theorem inTurn_eq {tags : List Tag} (h : tags.Nodup) (s : Text) :
    inTurn tags s = (removeLines (isLineOfAny tags) s,
      tags.map fun tag => (lines s).countP (Statement.isLine tag)) := by
  induction tags generalizing s with
  | nil =>
    have hkeep : removeLines (isLineOfAny []) s = s :=
      removeLines_of_none (lineTest_isLineOfAny []) fun _ _ => rfl
    rw [hkeep]
    rfl
  | cons tag tags ih =>
    obtain ⟨htag, htags⟩ := List.nodup_cons.1 h
    have hall : removeLines (isLineOfAny tags) (ofText tag s).text =
        removeLines (isLineOfAny (tag :: tags)) s :=
      removeLines_removeLines (lineTest_isLineOfAny tags) (lineTest_isLine tag) s
    have hcount : ∀ tag' ∈ tags, (lines (ofText tag s).text).countP (Statement.isLine tag') =
        (lines s).countP (Statement.isLine tag') := by
      intro tag' htag'
      have hne : tag ≠ tag' := fun hsame => htag (hsame ▸ htag')
      exact countP_lines_text_ofText hne s
    rw [inTurn, ih htags, hall, removed_ofText, List.map_congr_left hcount]
    rfl

end Removal

namespace Session

/-- What every session keeps: the text it started with is what is left without the statements, and
of each tag there are as many statements as were made. A carriage return at the end could be lost,
so there is none. -/
structure Restorable (start : Text) (tags : List Tag) (s : Session) : Prop where
  no_return : s.text.getLast? ≠ some '\r'
  restores : removeLines (Removal.isLineOfAny tags) s.text = start
  counts : ∀ tag ∈ tags, (lines s.text).countP (Statement.isLine tag) = s.made.count tag

variable {start : Text} {tags : List Tag} {s : Session}

theorem restorable_start (hstart : start.getLast? ≠ some '\r')
    (hnone : ∀ tag ∈ tags, ∀ line ∈ lines start, Statement.isLine tag line = false) :
    Restorable start tags ⟨start, []⟩ where
  no_return := hstart
  restores := by
    apply removeLines_of_none (Removal.lineTest_isLineOfAny tags)
    intro line hline
    exact List.any_eq_false.2 fun tag htag => by simp [hnone tag htag line hline]
  counts tag htag := List.countP_eq_zero.2 fun line hline => by simp [hnone tag htag line hline]

/-- One insertion keeps the invariant. -/
theorem Restorable.insert (h : Restorable start tags s) (r : Request)
    (htag : r.context.tag ∈ tags) :
    Restorable start tags (s.insert r) := by
  rw [Session.insert]
  split
  · rename_i selected entry hplan
    have hpass := Document.isLine_of_planInsertion hplan
    obtain ⟨hne, hfeed, hreturn⟩ := Document.text_of_planInsertion hplan
    constructor
    · exact Document.getLast?_insertLine h.no_return hne hreturn (by decide) _
    · have hany : Removal.isLineOfAny tags entry.text = true :=
        List.any_eq_true.2 ⟨r.context.tag, htag, hpass⟩
      rw [Document.insertEntry, Document.removeLines_insertLine
        (Removal.lineTest_isLineOfAny tags) hany hfeed h.no_return]
      exact h.restores
    · intro tag htag'
      rw [Document.insertEntry,
        Document.countP_lines_insertLine (Removal.lineTest_isLine tag) hfeed, Document.text_ofText,
        h.counts tag htag', List.count_cons, List.countP_singleton]
      by_cases hsame : r.context.tag = tag
      · subst hsame
        simp [hpass]
      · have hother : Statement.isLine tag entry.text = false :=
          Bool.eq_false_iff.2 fun hline => hsame (Statement.eq_of_isLine hpass hline)
        simp [hother, hsame]
  · exact h

theorem Restorable.run (h : Restorable start tags s) {requests : List Request}
    (htags : ∀ r ∈ requests, r.context.tag ∈ tags) : Restorable start tags (s.run requests) := by
  induction requests generalizing s with
  | nil => exact h
  | cons r requests ih =>
    obtain ⟨hr, hrest⟩ := List.forall_mem_cons.1 htags
    exact ih (h.insert r hr) hrest

/-- Removing the statements of every tag, in any order, undoes a session, and each removal reports
as many statements as the session has made with its tag. -/
theorem inTurn_run (start : Text) (tags order : List Tag) (requests : List Request)
    (hstart : start.getLast? ≠ some '\r') (hdistinct : tags.Nodup)
    (hnone : ∀ tag ∈ tags, ∀ line ∈ lines start, Statement.isLine tag line = false)
    (htags : ∀ r ∈ requests, r.context.tag ∈ tags) (horder : order.Perm tags) :
    let final := run ⟨start, []⟩ requests
    Removal.inTurn order final.text = (start, order.map fun tag => final.made.count tag) := by
  intro final
  have hfinal : Restorable start order final :=
    (restorable_start hstart fun tag htag => hnone tag (horder.mem_iff.1 htag)).run
      fun r hr => horder.mem_iff.2 (htags r hr)
  rw [Removal.inTurn_eq (horder.nodup_iff.2 hdistinct), hfinal.restores,
    List.map_congr_left hfinal.counts]

/-- Statements of two tags, in the middle and twice after the unterminated end of a text; one
request has no line. -/
theorem inTurn_run_two_tags :
    let start := "a\r\nb".toList
    let debug : Tag := ⟨"DBG".toList, by decide, by simp; decide, by decide⟩
    let context (tag : Tag) : InsertionContext := ⟨[], "Repo".toList, "a/b.js".toList, tag⟩
    let requests : List Request := [⟨.expression 1 "b".toList, context Tag.standard⟩,
      ⟨.expression 9 "b".toList, context debug⟩,
      ⟨.selection ⟨⟨0, 0⟩, ⟨0, 1⟩⟩, context debug⟩,
      ⟨.expression 3 "b".toList, context Tag.standard⟩]
    start.getLast? ≠ some '\r' ∧ [Tag.standard, debug].Nodup ∧
      (∀ tag ∈ [Tag.standard, debug], ∀ line ∈ lines start, Statement.isLine tag line = false) ∧
      (∀ r ∈ requests, r.context.tag ∈ [Tag.standard, debug]) ∧
      [debug, Tag.standard].Perm [Tag.standard, debug] ∧
      Removal.inTurn [debug, Tag.standard] (run ⟨start, []⟩ requests).text = (start, [1, 2]) := by
  intro start debug context requests
  have hstart : start.getLast? ≠ some '\r' := by decide
  have hdistinct : [Tag.standard, debug].Nodup := by decide
  have hnone : ∀ tag ∈ [Tag.standard, debug], ∀ line ∈ lines start,
      Statement.isLine tag line = false := by decide
  have htags : ∀ r ∈ requests, r.context.tag ∈ [Tag.standard, debug] := by decide
  have horder : [debug, Tag.standard].Perm [Tag.standard, debug] := List.Perm.swap _ _ _
  refine ⟨hstart, hdistinct, hnone, htags, horder, ?_⟩
  have hmade : [debug, Tag.standard].map (fun tag => (run ⟨start, []⟩ requests).made.count tag) =
      [1, 2] := by
    decide +kernel
  rw [inTurn_run start _ _ requests hstart hdistinct hnone htags horder, hmade]

end Session
end Logmark
