import Logmark.Command.Basic
import Logmark.Command.Grammar
import Logmark.Position.Address

/-!
The argument lists of the program. Options that all commands share may stand before or behind the
name of the command; behind it they count for more.
-/
namespace Logmark

/-- The options that all commands share. -/
structure SharedOptions where
  settings? : Option Text
  verbose : Bool

namespace SharedOptions

def empty : SharedOptions := ⟨none, false⟩

/-- Paths must not be empty. -/
def readPath? (s : Text) : Option Text := if s = [] then none else some s

/-- The shared options in a record that holds them. -/
def rules (get : σ → SharedOptions) (set : σ → SharedOptions → σ) : List (OptionRule σ) :=
  [.value "config" none readPath? (fun record => (get record).settings?) fun record path =>
      set record { get record with settings? := some path },
    .flag "verbose" (some 'v') (fun record => (get record).verbose) fun record =>
      set record { get record with verbose := true },
    ⟨"help".toList, some 'h', .interrupt .help⟩]

end SharedOptions

/-- The mode that two flags ask for. -/
def Mode.ofFlags (preview json : Bool) : Except UsageError Mode :=
  match preview, json with
  | true, true => throw (.conflicting "json".toList "dry-run".toList)
  | true, false => return .preview
  | false, true => return .json
  | false, false => return .apply

/-- The value of an argument that must be given. -/
def required (name : String) : Option α → Except UsageError α
  | some a => return a
  | none => throw (.missing name.toList)

/-- Takes the only operand that there may be. -/
def takeOnce (get? : σ → Option Text) (set : σ → Text → σ) (record : σ) (arg : Text) : Option σ :=
  if (get? record).isSome then none else some (set record arg)

structure InsertArguments where
  shared : SharedOptions
  file? : Option Text
  selection? : Option Range
  line? : Option Position
  expression? : Option Text
  outline? : Option Text
  label? : Option Text
  tag? : Option Text
  preview : Bool
  json : Bool

namespace InsertArguments

def empty : InsertArguments := ⟨.empty, none, none, none, none, none, none, none, false, false⟩

def grammar : Grammar InsertArguments where
  options :=
    SharedOptions.rules (·.shared) (fun record shared => { record with shared }) ++
    [.value "selection" (some 's') (Range.ofAddresses · |>.toOption) (·.selection?)
        fun record r => { record with selection? := some r },
      .value "line" (some 'l') (Position.ofAddress · |>.toOption) (·.line?)
        fun record p => { record with line? := some p },
      .value "expr" (some 'e') some (·.expression?)
        fun record s => { record with expression? := some s },
      .value "outline" (some 'o') SharedOptions.readPath? (·.outline?)
        fun record path => { record with outline? := some path },
      .value "label" none some (·.label?) fun record s => { record with label? := some s },
      .value "tag" (some 't') some (·.tag?) fun record s => { record with tag? := some s },
      .flag "dry-run" (some 'n') (·.preview) fun record => { record with preview := true },
      .flag "json" none (·.json) fun record => { record with json := true }]
  operand? := some (takeOnce (·.file?) fun record file => { record with file? := some file })

/-- The target that is asked for. A selection stands alone; a line and an expression go together. -/
def target? (a : InsertArguments) : Except UsageError (Option Target) :=
  match a.selection?, a.line?, a.expression? with
  | some r, none, none => return some (.selection r)
  | some _, some _, _ => throw (.conflicting "selection".toList "line".toList)
  | some _, none, some _ => throw (.conflicting "selection".toList "expr".toList)
  | none, some p, some s => return some (.expression p.line s)
  | none, some _, none => throw (.missing "expr".toList)
  | none, none, some _ => throw (.missing "line".toList)
  | none, none, none => return none

def command (a : InsertArguments) : Except UsageError Command := do
  let file ← required "FILE" a.file?
  let target? ← a.target?
  let mode ← Mode.ofFlags a.preview a.json
  return .insert file ⟨target?, a.outline?, a.label?, a.tag?, mode⟩

end InsertArguments

structure RemoveArguments where
  shared : SharedOptions
  file? : Option Text
  tag? : Option Text
  preview : Bool
  json : Bool

namespace RemoveArguments

def empty : RemoveArguments := ⟨.empty, none, none, false, false⟩

def grammar : Grammar RemoveArguments where
  options :=
    SharedOptions.rules (·.shared) (fun record shared => { record with shared }) ++
    [.value "tag" (some 't') some (·.tag?) fun record s => { record with tag? := some s },
      .flag "dry-run" (some 'n') (·.preview) fun record => { record with preview := true },
      .flag "json" none (·.json) fun record => { record with json := true }]
  operand? := some (takeOnce (·.file?) fun record file => { record with file? := some file })

def command (a : RemoveArguments) : Except UsageError Command := do
  let file ← required "FILE" a.file?
  let mode ← Mode.ofFlags a.preview a.json
  return .remove file a.tag? mode

end RemoveArguments

structure LocateArguments where
  shared : SharedOptions
  outline? : Option Text
  line? : Option Position

namespace LocateArguments

def empty : LocateArguments := ⟨.empty, none, none⟩

def grammar : Grammar LocateArguments where
  options :=
    SharedOptions.rules (·.shared) (fun record shared => { record with shared }) ++
    [.value "outline" (some 'o') SharedOptions.readPath? (·.outline?)
        fun record path => { record with outline? := some path },
      .value "line" (some 'l') (Position.ofAddress · |>.toOption) (·.line?)
        fun record p => { record with line? := some p }]
  operand? := some fun _ _ => none

def command (a : LocateArguments) : Except UsageError Command := do
  return .locate (← required "outline" a.outline?) (← required "line" a.line?)

end LocateArguments

structure TagArguments where
  shared : SharedOptions
  tag? : Option Text
  reset : Bool

namespace TagArguments

def empty : TagArguments := ⟨.empty, none, false⟩

def grammar : Grammar TagArguments where
  options :=
    SharedOptions.rules (·.shared) (fun record shared => { record with shared }) ++
    [.flag "reset" none (·.reset) fun record => { record with reset := true }]
  operand? := some (takeOnce (·.tag?) fun record s => { record with tag? := some s })

def command (a : TagArguments) : Except UsageError Command :=
  match a.tag?, a.reset with
  | none, false => return .showTag
  | some value, false => return .setTag value
  | none, true => return .resetTag
  | some _, true => throw (.conflicting "reset".toList "NEW_TAG".toList)

end TagArguments

/-- Reads the arguments of a command with its grammar. -/
def Grammar.readCommand (g : Grammar σ) (empty : σ) (shared : σ → SharedOptions)
    (command : σ → Except UsageError Command) (args : List Text) :
    Except Interruption (SharedOptions × Command) := do
  let (record, _) ← g.read empty args
  let command ← (command record).mapError .misuse
  return (shared record, command)

namespace Command

/-- The names of the commands. -/
def names : List Text :=
  ["insert".toList, "remove".toList, "locate".toList, "tag".toList, "help".toList]

/-- Reads the arguments of the command with the given name. -/
def ofArguments (name : Text) (args : List Text) : Except Interruption (SharedOptions × Command) :=
  if name = "insert".toList then
    InsertArguments.grammar.readCommand .empty (·.shared) InsertArguments.command args
  else if name = "remove".toList then
    RemoveArguments.grammar.readCommand .empty (·.shared) RemoveArguments.command args
  else if name = "locate".toList then
    LocateArguments.grammar.readCommand .empty (·.shared) LocateArguments.command args
  else if name = "tag".toList then
    TagArguments.grammar.readCommand .empty (·.shared) TagArguments.command args
  else if name = "help".toList then
    match args with
    | [] => throw .help
    | arg :: rest =>
      if arg ∈ names ∧ rest = [] then throw .help
      else throw (.misuse (.unexpectedArgument arg))
  else throw (.misuse (.unexpectedArgument name))

end Command

namespace Invocation

/-- The grammar of the arguments before the name of a command. -/
def grammar : Grammar SharedOptions where
  options := SharedOptions.rules id (fun _ shared => shared) ++
    [⟨"version".toList, some 'V', .interrupt .version⟩]
  operand? := none

/-- The invocation that an argument list asks for. -/
def ofArguments (args : List Text) : Except Interruption Invocation := do
  match ← grammar.read .empty args with
  | (_, none) => throw (.misuse .noCommand)
  | (before, some (name, args)) =>
    let (behind, command) ← Command.ofArguments name args
    return ⟨behind.settings? <|> before.settings?, command⟩

end Invocation
end Logmark
