import Logmark.Position.Basic

/-!
Symbols of a source file and the search for the innermost one around a position. An outline is the
list of the top-level symbols.
-/
namespace Logmark

/-- A named span of a file with the symbols inside it. -/
structure Symbol where
  name : Text
  range : Range
  children : List Symbol
  deriving Repr

abbrev Outline := List Symbol

mutual

/-- The symbol reached from a symbol by going down, level by level, into the first child that
holds `p`. -/
def Symbol.innermost (p : Position) : Symbol → Symbol
  | ⟨name, range, children⟩ => (Outline.locate p children).getD ⟨name, range, children⟩

/-- The innermost symbol around `p`: of the symbols on one level the first that holds `p` is
entered. -/
def Outline.locate (p : Position) : Outline → Option Symbol
  | [] => none
  | s :: rest => if p ∈ s.range then some (s.innermost p) else Outline.locate p rest

end

/-- The name that stands for the missing symbol. -/
def Symbol.unknownName : Text := "unknown symbol".toList

end Logmark
