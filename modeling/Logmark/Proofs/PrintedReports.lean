import Logmark.Command.Report
import Logmark.Proofs.JsonRoundTrip

/-!
What the JSON that a command prints says. A program that runs the commands reads an entry or a
removal back from what is printed, whatever texts and numbers it has.
-/
namespace Logmark

open Text

namespace Json

/-- Reads a number of digits only, however large it is. -/
def readNatural : Reader Nat := fun s => do
  let (n, s) ← Number.scan (skipSpace s)
  if n.negative ∨ n.fraction.isSome ∨ n.exponent.isSome then throw .mistyped
  return (Nat.ofDigitChars 10 n.integer 0, s)

def readBool : Reader Bool := fun s =>
  match skipSpace s with
  | 't' :: s => do return (true, ← skipWord "rue".toList s)
  | 'f' :: s => do return (false, ← skipWord "alse".toList s)
  | s => .error (typeFault s)

/-- A printed count is read back. -/
theorem reads_printCount (n : Nat) : Reads readNatural (printCount n) n := by
  intro w rest hw hrest
  have hwritten := Number.isWritten_numeral n
  rw [printCount, ← numeral, readNatural, hwritten.starts.skipSpace_append hw, hwritten.scan hrest]
  simp only [bind, Except.bind, Number.ofCount, numeral, Nat.ofDigitChars_ten_toDigits]
  rfl

theorem reads_printBool (b : Bool) : Reads readBool (printBool b) b := by
  intro w rest hw _
  rw [readBool, skipSpace_append hw]
  cases b <;> rfl

end Json

namespace Report

def entryMembers : List (Json.Member (Option Text × Option Nat)) :=
  [.of "text".toList Json.readText (·.1) fun record text => (some text, record.2),
    .of "insertionLine".toList Json.readNatural (·.2) fun record n => (record.1, some n)]

/-- Reads an entry from what is printed for one. -/
def readEntry (s : Text) : Except Json.Fault Entry :=
  Json.readAll (fun turns =>
    Json.readRecord turns (some entryMembers) (none, none) fun (text?, line?) => do
      return ⟨← text?, ← line?⟩) s

def removalMembers : List (Json.Member (Option Text × Option Bool × Option Nat)) :=
  [.of "text".toList Json.readText (·.1) fun record text => (some text, record.2),
    .of "changed".toList Json.readBool (·.2.1) fun record b => (record.1, some b, record.2.2),
    .of "removed".toList Json.readNatural (·.2.2) fun record n => (record.1, record.2.1, some n)]

/-- Reads a removal from what is printed for one. -/
def readRemoval (s : Text) : Except Json.Fault Removal :=
  Json.readAll (fun turns =>
    Json.readRecord turns (some removalMembers) (none, none, none)
      fun (text?, changed?, removed?) => do return ⟨← text?, ← changed?, ← removed?⟩) s

open Json (Fills isText_printText printedMember reads_printBool reads_printCount reads_text)

theorem readEntry_entryJson (e : Entry) : readEntry (entryJson e ++ ['\n']) = .ok e := by
  have hfills : Fills entryMembers (none, none)
      ([("text".toList, Json.printText e.text),
        ("insertionLine".toList, Json.printCount e.insertionLine)].map printedMember)
      (some e.text, some e.insertionLine) := by
    refine .of rfl rfl (reads_text (isText_printText e.text)) ?_
    exact .of rfl rfl (reads_printCount e.insertionLine) (.nil _)
  exact Json.readAll_printObject _ hfills rfl (by simp [Json.Spaces])

theorem readRemoval_removalJson (r : Removal) : readRemoval (removalJson r ++ ['\n']) = .ok r := by
  have hfills : Fills removalMembers (none, none, none)
      ([("text".toList, Json.printText r.text), ("changed".toList, Json.printBool r.changed),
        ("removed".toList, Json.printCount r.removed)].map printedMember)
      (some r.text, some r.changed, some r.removed) := by
    refine .of rfl rfl (reads_text (isText_printText r.text)) ?_
    refine .of rfl rfl (reads_printBool r.changed) ?_
    exact .of rfl rfl (reads_printCount r.removed) (.nil _)
  exact Json.readAll_printObject _ hfills rfl (by simp [Json.Spaces])

end Report
end Logmark
