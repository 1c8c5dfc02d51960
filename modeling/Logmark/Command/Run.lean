import Logmark.Command.Arguments
import Logmark.Command.Report
import Logmark.Settings.Store
import Logmark.Symbol.Store
import Logmark.Workspace

/-!
Running commands on files. Every command reads what it needs first and writes one file at the end,
if any, so that a command that fails has changed no file.
-/
namespace Logmark

variable {m : Type → Type} [Monad m] [Files m]

/-- What a command gives: the lines it prints, or why it fails. -/
abbrev Run (m : Type → Type) := ExceptT Failure m

namespace Run

/-- What a question about files is answered; asking cannot fail. -/
def ask (question : m α) : Run m α := ExceptT.lift question

/-- The document in a file. -/
def document (path : Text) : Run m Document := do
  unless ← ask (Files.isFile path) do throw (.noDocument path)
  match ← ask (Files.readText? path) with
  | none => throw (.unreadable path)
  | some text => return Document.ofText text

def settingsFailure (path : Text) : LoadError → Failure
  | .unreadable => .unreadable path
  | .json _ => .badSettings path

def tagFailure : TagChoiceError → Failure
  | .invalid error => .badTag error
  | .noSettingsPath => .noSettingsPath
  | .unloadable path error => settingsFailure path error

def saveFailure (path : Text) : SaveError → Failure
  | .noDirectory directory => .notMade directory
  | .unwritable => .notWritten path

/-- The tag to use. -/
def tag (asked? settingsPath? : Option Text) : Run m Tag := do
  match ← ask (Tag.choose asked? settingsPath?) with
  | .ok tag => return tag
  | .error error => throw (tagFailure error)

/-- The label to use. -/
def label (given? : Option Text) (file : Text) : Run m Text :=
  match given? with
  | some label => return label
  | none => ask (workspaceLabel file)

/-- Puts a text in place of the content of a file. -/
def update (path text : Text) : Run m Unit := do
  unless ← ask (Files.replace path (Text.encode text)) do throw (.notUpdated path)

/-- The expression in the document of a file that is to be logged, and the statement for it. No file
is changed. -/
def planInsertion (settingsPath? : Option Text) (file : Text) (d : Document) (target : Target)
    (options : InsertOptions) : Run m (Text × Entry) := do
  let tag ← tag options.tag? settingsPath?
  let outline ← ask (Outline.loadOrEmpty options.outline?)
  let label ← label options.label? file
  let path := (← ask (Files.canonical? file)).getD file
  match d.planInsertion target ⟨outline, label, path, tag⟩ with
  | .error error => throw (.badInsertion error)
  | .ok planned => return planned

/-- Makes a planned insertion, or shows it. -/
def finishInsertion (file : Text) (mode : Mode) (d : Document) (selected : Text) (entry : Entry) :
    Run m (List Text) := do
  match mode with
  | .json => return [Report.entryJson entry]
  | .preview => return Report.insertionPreview file entry
  | .apply =>
    update file (d.insertEntry entry).text
    return Report.inserted selected entry

def insert (settingsPath? : Option Text) (file : Text) (target : Target) (options : InsertOptions) :
    Run m (List Text) := do
  let d ← document file
  let (selected, entry) ← planInsertion settingsPath? file d target options
  finishInsertion file options.mode d selected entry

/-- Removes the statements of a tag from the document in a file, or shows what would go. -/
def finishRemoval (file : Text) (mode : Mode) (d : Document) (tag : Tag) : Run m (List Text) := do
  let removal := Removal.ofText tag d.text
  if mode = .json then return [Report.removalJson removal]
  else if ¬ removal.changed then return Report.nothingToRemove
  else if mode = .preview then
    return Report.removalPreview file removal.removed (d.statementLines tag)
  else
    update file removal.text
    return Report.removed removal.removed

def remove (settingsPath? : Option Text) (file : Text) (tag? : Option Text) (mode : Mode) :
    Run m (List Text) := do
  let d ← document file
  let tag ← tag tag? settingsPath?
  finishRemoval file mode d tag

def locate (path : Text) (position : Position) : Run m (List Text) := do
  match ← ask (Outline.load path) with
  | .error _ => throw (.noOutline path)
  | .ok outline =>
    return [((Outline.locate position outline).map (·.name)).getD Symbol.unknownName]

/-- The path of the settings file, which a command on settings cannot do without. -/
def settingsPath (settingsPath? : Option Text) : Run m Text :=
  match settingsPath? with
  | some path => return path
  | none => throw .noSettingsPath

def loadSettings (path : Text) : Run m Settings := do
  match ← ask (Settings.load path) with
  | .ok settings => return settings
  | .error error => throw (settingsFailure path error)

def saveSettings (settings : Settings) (path : Text) : Run m Unit := do
  match ← ask (settings.save path) with
  | .ok () => return ()
  | .error error => throw (saveFailure path error)

def showTag (settingsPath? : Option Text) : Run m (List Text) := do
  let settings ← loadSettings (← settingsPath settingsPath?)
  return [settings.tag.name]

def setTag (settingsPath? : Option Text) (value : Text) : Run m (List Text) := do
  let path ← settingsPath settingsPath?
  let settings ← loadSettings path
  match settings.setTag value with
  | .error error => throw (.badTag error)
  | .ok settings =>
    saveSettings settings path
    return Report.tagSet settings.tag

def resetTag (settingsPath? : Option Text) : Run m (List Text) := do
  let path ← settingsPath settingsPath?
  saveSettings .standard path
  return Report.tagReset Settings.standard.tag

end Run

namespace Command

/-- The lines that a command prints before it does anything. -/
def banner : Command → List Text
  | insert _ options =>
    if options.mode = .preview ∧ options.target?.isSome then [Report.previewBanner] else []
  | remove _ _ mode => if mode = .preview then [Report.previewBanner] else []
  | _ => []

/-- Runs a command with the given settings file. -/
def execute (settingsPath? : Option Text) : Command → Run m (List Text)
  | insert file options =>
    match options.target? with
    | none => throw .noTarget
    | some target => Run.insert settingsPath? file target options
  | remove file tag? mode => Run.remove settingsPath? file tag? mode
  | locate outline position => Run.locate outline position
  | showTag => Run.showTag settingsPath?
  | setTag value => Run.setTag settingsPath? value
  | resetTag => Run.resetTag settingsPath?

end Command

/-- Runs an invocation; `usual?` is the settings file to use unless the invocation names one. -/
def Invocation.run (i : Invocation) (usual? : Option Text) : m Outcome := do
  match ← (i.command.execute (i.settings? <|> usual?)).run with
  | .ok lines => return ⟨i.command.banner ++ lines, none⟩
  | .error failure => return ⟨i.command.banner, some failure⟩

/-- What a run of the program gives: its exit code, the lines it prints and what it complains of. -/
structure Response where
  exitCode : Nat
  lines : List Text
  complaint? : Option Text
  deriving DecidableEq, Repr

namespace Response

/-- What the user is told of an outcome. -/
def ofOutcome (o : Outcome) : Response where
  exitCode := o.exitCode
  lines := o.lines
  complaint? := o.failure?.map fun failure => "Error: ".toList ++ failure.message

/-- What the user is told of arguments that ask for no command. -/
def ofInterruption : Interruption → Response
  | .version => ⟨0, Report.version, none⟩
  | .help => ⟨0, Report.help, none⟩
  | .misuse error => ⟨2, [], some ("error: ".toList ++ error.message)⟩

end Response

/-- Runs the program with an argument list; `usual?` is the settings file to use unless the
arguments name one. -/
def Program.respond (usual? : Option Text) (args : List Text) : m Response := do
  match Invocation.ofArguments args with
  | .error interruption => return Response.ofInterruption interruption
  | .ok invocation => return Response.ofOutcome (← invocation.run usual?)

end Logmark
