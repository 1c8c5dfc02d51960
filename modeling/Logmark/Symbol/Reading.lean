import Logmark.Json.Container
import Logmark.Symbol.Basic

/-!
Reading outlines from JSON, in the form that language servers give to document symbols. Symbols may
have more members than the ones that are read here.
-/
namespace Logmark

open Json (Member Reader readArray readRecord)

/-- Reads a position; `depth` is the number of levels that may still be opened. -/
def Position.readJson (turns depth : Nat) : Reader Position :=
  let members : List (Member (Option Nat × Option Nat)) :=
    [.of "line".toList Json.readCount (·.1) fun record n => (some n, record.2),
      .of "character".toList Json.readCount (·.2) fun record n => (record.1, some n)]
  readRecord turns (if depth = 0 then none else some members) (none, none) fun record => do
    return ⟨← record.1, ← record.2⟩

/-- Reads a range. Its ends are kept in the order in which they are given. -/
def Range.readJson (turns depth : Nat) : Reader Range :=
  let position := Position.readJson turns (depth - 1)
  let members : List (Member (Option Position × Option Position)) :=
    [.of "start".toList position (·.1) fun record p => (some p, record.2),
      .of "end".toList position (·.2) fun record p => (record.1, some p)]
  readRecord turns (if depth = 0 then none else some members) (none, none) fun record => do
    return ⟨← record.1, ← record.2⟩

/-- The members of a symbol that have been read. -/
structure SymbolRecord where
  name? : Option Text
  range? : Option Range
  children? : Option (List Symbol)

namespace SymbolRecord

def empty : SymbolRecord := ⟨none, none, none⟩

/-- The symbol with the members of a record. Only the children may be missing. -/
def finish (record : SymbolRecord) : Option Symbol := do
  return ⟨← record.name?, ← record.range?, record.children?.getD []⟩

/-- The members of a symbol, whose range and children are read by `range` and `children`. -/
def members (range : Reader Range) (children : Reader (List Symbol)) : List (Member SymbolRecord) :=
  [.of "name".toList Json.readText (·.name?) fun record name => { record with name? := some name },
    .of "range".toList range (·.range?) fun record r => { record with range? := some r },
    .of "children".toList children (·.children?) fun record cs =>
      { record with children? := some cs }]

end SymbolRecord

mutual

/-- Reads a symbol with the symbols inside it. -/
def Symbol.readJson (turns : Nat) : (depth : Nat) → Reader Symbol
  | 0 => readRecord turns none SymbolRecord.empty SymbolRecord.finish
  | depth + 1 =>
    let range := Range.readJson turns depth
    let children := Symbol.readJsonList turns depth
    readRecord turns (some (SymbolRecord.members range children)) SymbolRecord.empty
      SymbolRecord.finish

/-- Reads an array of symbols. -/
def Symbol.readJsonList (turns : Nat) : (depth : Nat) → Reader (List Symbol)
  | 0 => readArray turns none
  | depth + 1 => readArray turns (some (Symbol.readJson turns depth))

end

namespace Outline

/-- Reads an outline, for which `null` may stand if it is empty. -/
def readJson (turns : Nat) : Reader Outline := fun s =>
  match Json.skipSpace s with
  | 'n' :: s => do
    let s ← Json.skipWord "ull".toList s
    return ([], s)
  | s => Symbol.readJsonList turns Json.maxDepth s

/-- The outline that a text spells. -/
def ofJson (s : Text) : Except Json.Fault Outline := Json.readAll readJson s

end Outline
end Logmark
