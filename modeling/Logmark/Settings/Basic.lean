import Logmark.Json.Container
import Logmark.Json.Printing
import Logmark.Tag

/-!
The settings: the tag in use. They are kept as a JSON object with one member.
-/
namespace Logmark

structure Settings where
  tag : Tag
  deriving DecidableEq

/-- Reads a string that must spell a tag. -/
def Tag.readJson : Json.Reader Tag := fun s => do
  let (name, s) ← Json.readText s
  match Tag.ofText name with
  | .ok tag => return (tag, s)
  | .error _ => throw .mistyped

/-- The tag that a JSON text spells. -/
def Tag.ofJson (s : Text) : Except Json.Fault Tag := Json.readAll (fun _ => Tag.readJson) s

namespace Settings

/-- The settings in use until others are saved. -/
def standard : Settings := ⟨Tag.standard⟩

instance : Inhabited Settings := ⟨standard⟩

/-- Puts the tag that `value` spells in place of the present one. -/
def setTag (_ : Settings) (value : Text) : Except TagError Settings := do
  return ⟨← Tag.ofText value⟩

def readJson (turns : Nat) : Json.Reader Settings :=
  let members : List (Json.Member (Option Tag)) :=
    [.of "tag".toList Tag.readJson id fun _ tag => some tag]
  Json.readRecord turns (some members) none fun record => some ⟨record.getD Tag.standard⟩

/-- The settings that a JSON text spells. A missing tag is the standard one. -/
def ofJson (s : Text) : Except Json.Fault Settings := Json.readAll readJson s

def toJson (settings : Settings) : Text :=
  Json.printObject [("tag".toList, Json.printText settings.tag.name)]

end Settings
end Logmark
