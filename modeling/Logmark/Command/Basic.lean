import Logmark.Insertion
import Logmark.Tag

/-!
The commands of the program, what they answer, and why they fail.
-/
namespace Logmark

/-- What becomes of a change: it is made, shown to the user, or printed as JSON. -/
inductive Mode where
  | apply
  | preview
  | json
  deriving DecidableEq, Repr

/-- What a statement is inserted with. -/
structure InsertOptions where
  target? : Option Target
  outline? : Option Text
  label? : Option Text
  tag? : Option Text
  mode : Mode
  deriving DecidableEq, Repr

inductive Command where
  | insert (file : Text) (options : InsertOptions)
  | remove (file : Text) (tag? : Option Text) (mode : Mode)
  | locate (outline : Text) (position : Position)
  | showTag
  | setTag (value : Text)
  | resetTag
  deriving DecidableEq, Repr

/-- A command and the settings file it is to use in place of the usual one. -/
structure Invocation where
  settings? : Option Text
  command : Command
  deriving DecidableEq, Repr

/-- Why a command fails. -/
inductive Failure where
  | noTarget
  | noDocument (path : Text)
  | unreadable (path : Text)
  | badSettings (path : Text)
  | noSettingsPath
  | badTag (error : TagError)
  | badInsertion (error : InsertionError)
  | noOutline (path : Text)
  | notMade (path : Text)
  | notWritten (path : Text)
  | notUpdated (path : Text)
  deriving DecidableEq, Repr

def Failure.message : Failure → Text
  | noTarget => "Either --selection or --line with --expr must be provided".toList
  | noDocument path => "No such document: ".toList ++ path
  | unreadable path => "Failed to read: ".toList ++ path
  | badSettings path => "Failed to parse settings: ".toList ++ path
  | noSettingsPath => "Could not determine config directory".toList
  | badTag error => "Invalid identifier: ".toList ++ error.message
  | badInsertion error => error.message
  | noOutline path => "Failed to load outline: ".toList ++ path
  | notMade path => "Failed to create: ".toList ++ path
  | notWritten path => "Failed to write: ".toList ++ path
  | notUpdated path => "Failed to update: ".toList ++ path

/-- What a run prints, line by line, and why it failed if it did. -/
structure Outcome where
  lines : List Text
  failure? : Option Failure
  deriving DecidableEq, Repr

namespace Outcome

def exitCode (o : Outcome) : Nat := if o.failure?.isSome then 1 else 0

/-- What is printed, every line with its line feed. -/
def output (o : Outcome) : Text := o.lines.flatMap (· ++ ['\n'])

end Outcome
end Logmark
