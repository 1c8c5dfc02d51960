import Logmark.Proofs.JsonRoundTrip
import Logmark.Symbol.Basic

/-!
Outlines as JSON texts. An outline is written as an array of symbols, and a symbol as an object that
has a name, a range and its children among any other members; there are many such texts for one
outline. One of them is printed for every outline whose coordinates are counts.
-/
namespace Logmark

open Text
open Json (Enclosed IsObject IsText OthersHold Spaces enclosed_printArray isObject_printObject
  isText_printText othersHold_printed printArray printCount printObject printText)
open Json.WrittenMember (valuesOf)

/-- The coordinates of a position are counts. -/
def Position.HasCounts (p : Position) : Prop := p.line ≤ maxCount ∧ p.column ≤ maxCount

/-- An object that a position is written as. -/
def Position.IsWritten (p : Position) (v : Text) : Prop :=
  p.HasCounts ∧ ∃ ms, IsObject ms v ∧ OthersHold ["line".toList, "character".toList] ms ∧
    valuesOf "line".toList ms = [numeral p.line] ∧
    valuesOf "character".toList ms = [numeral p.column]

/-- An object that a range is written as. -/
def Range.IsWritten (r : Range) (v : Text) : Prop :=
  ∃ ms start stop, IsObject ms v ∧ OthersHold ["start".toList, "end".toList] ms ∧
    valuesOf "start".toList ms = [start] ∧ r.start.IsWritten start ∧
    valuesOf "end".toList ms = [stop] ∧ r.stop.IsWritten stop

mutual

/-- An object that a symbol is written as. The array of its children may be left out if it is
empty. -/
def Symbol.IsWritten : Symbol → Text → Prop
  | ⟨name, range, children⟩, v =>
    ∃ ms writtenName writtenRange, IsObject ms v ∧
      OthersHold ["name".toList, "range".toList, "children".toList] ms ∧
      valuesOf "name".toList ms = [writtenName] ∧ IsText name writtenName ∧
      valuesOf "range".toList ms = [writtenRange] ∧ range.IsWritten writtenRange ∧
      (valuesOf "children".toList ms = [] ∧ children = [] ∨
        ∃ written vs, valuesOf "children".toList ms = [written] ∧ Enclosed .array vs written ∧
          Outline.AreWritten children vs)

/-- Each symbol is written as an object. -/
def Outline.AreWritten : Outline → List Text → Prop
  | [], vs => vs = []
  | s :: rest, vs => ∃ v vs', vs = v :: vs' ∧ s.IsWritten v ∧ Outline.AreWritten rest vs'

end

/-- A text that an outline is written as. -/
def Outline.IsWritten (outline : Outline) (text : Text) : Prop :=
  ∃ w v w' vs, Spaces w ∧ Spaces w' ∧ text = w ++ (v ++ w') ∧ Enclosed .array vs v ∧
    Outline.AreWritten outline vs

/-! ### Printing -/

namespace Position

def toJson (p : Position) : Text :=
  printObject [("line".toList, printCount p.line), ("character".toList, printCount p.column)]

theorem isWritten_toJson {p : Position} (h : p.HasCounts) : p.IsWritten p.toJson :=
  ⟨h, _, isObject_printObject _, othersHold_printed rfl, rfl, rfl⟩

end Position

namespace Range

/-- The coordinates of both ends are counts. -/
def HasCounts (r : Range) : Prop := r.start.HasCounts ∧ r.stop.HasCounts

def toJson (r : Range) : Text :=
  printObject [("start".toList, r.start.toJson), ("end".toList, r.stop.toJson)]

theorem isWritten_toJson {r : Range} (h : r.HasCounts) : r.IsWritten r.toJson :=
  ⟨_, _, _, isObject_printObject _, othersHold_printed rfl, rfl, Position.isWritten_toJson h.1, rfl,
    Position.isWritten_toJson h.2⟩

end Range

mutual

/-- The ranges of a symbol and of all symbols inside it are counts. -/
def Symbol.HasCounts : Symbol → Prop
  | ⟨_, range, children⟩ => range.HasCounts ∧ Outline.HasCounts children

def Outline.HasCounts : Outline → Prop
  | [] => True
  | s :: rest => s.HasCounts ∧ Outline.HasCounts rest

end

mutual

def Symbol.toJson : Symbol → Text
  | ⟨name, range, children⟩ =>
    printObject [("name".toList, printText name), ("range".toList, range.toJson),
      ("children".toList, printArray (Outline.itemsJson children))]

/-- The symbols of a level, each as it is printed. -/
def Outline.itemsJson : Outline → List Text
  | [] => []
  | s :: rest => s.toJson :: Outline.itemsJson rest

end

def Outline.toJson (outline : Outline) : Text := printArray outline.itemsJson

mutual

theorem Symbol.isWritten_toJson : ∀ s : Symbol, s.HasCounts → s.IsWritten s.toJson
  | ⟨name, range, children⟩, h => by
    rw [Symbol.HasCounts] at h
    obtain ⟨hrange, hchildren⟩ := h
    rw [Symbol.toJson, Symbol.IsWritten]
    exact ⟨_, _, _, isObject_printObject _, othersHold_printed rfl, rfl, isText_printText name, rfl,
      range.isWritten_toJson hrange, .inr ⟨_, _, rfl, enclosed_printArray _,
        Outline.areWritten_itemsJson children hchildren⟩⟩

theorem Outline.areWritten_itemsJson : ∀ outline : Outline, outline.HasCounts →
    outline.AreWritten outline.itemsJson
  | [], _ => by rw [Outline.itemsJson, Outline.AreWritten]
  | s :: rest, h => by
    rw [Outline.HasCounts] at h
    rw [Outline.itemsJson, Outline.AreWritten]
    exact ⟨_, _, rfl, s.isWritten_toJson h.1, Outline.areWritten_itemsJson rest h.2⟩

end

/-- An outline is written as what is printed for it. -/
theorem Outline.isWritten_toJson {outline : Outline} (h : outline.HasCounts) :
    outline.IsWritten outline.toJson :=
  ⟨[], outline.toJson, [], _, .nil, .nil, (List.append_nil _).symm, enclosed_printArray _,
    outline.areWritten_itemsJson h⟩

end Logmark
