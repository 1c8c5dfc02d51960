import Logmark.Text.Split

/-!
Argument lists with options. Options come by a long name after two hyphens or by a letter after one;
letters may share a hyphen. An option's value is attached to it, with or without an equals sign
(a long name needs it), or is the next argument if that is no option. After two hyphens alone there
are operands only. Every option may be given once.
-/
namespace Logmark

/-- Why an argument list asks for nothing. -/
inductive UsageError where
  | unknownOption (given : Text)
  | unexpectedArgument (given : Text)
  | unexpectedValue (option : Text)
  | missingValue (option : Text)
  | invalidValue (option value : Text)
  | repeated (option : Text)
  | missing (name : Text)
  | conflicting (first second : Text)
  | noCommand
  deriving DecidableEq, Repr

def UsageError.message : UsageError → Text
  | unknownOption given => "unknown option: ".toList ++ given
  | unexpectedArgument given => "unexpected argument: ".toList ++ given
  | unexpectedValue option => "option takes no value: ".toList ++ option
  | missingValue option => "option needs a value: ".toList ++ option
  | invalidValue option value => "invalid value for ".toList ++ option ++ ": ".toList ++ value
  | repeated option => "option given twice: ".toList ++ option
  | missing name => "missing argument: ".toList ++ name
  | conflicting first second =>
    "arguments exclude each other: ".toList ++ first ++ ", ".toList ++ second
  | noCommand => "missing command".toList

/-- What ends the reading of an argument list early. -/
inductive Interruption where
  | misuse (error : UsageError)
  | help
  | version
  deriving DecidableEq, Repr

/-- What an option does to the record of what has been read. -/
inductive OptionEffect (σ : Type) where
  | flag (isSet : σ → Bool) (set : σ → σ)
  | value (isSet : σ → Bool) (set : σ → Text → Option σ)
  | interrupt (interruption : Interruption)

structure OptionRule (σ : Type) where
  long : Text
  short? : Option Char
  effect : OptionEffect σ

namespace OptionRule

/-- A flag that is kept as a truth value. -/
def flag (long : String) (short? : Option Char) (get : σ → Bool) (set : σ → σ) : OptionRule σ :=
  ⟨long.toList, short?, .flag get set⟩

/-- An option whose value is read by `read?`. -/
def value (long : String) (short? : Option Char) (read? : Text → Option α) (get? : σ → Option α)
    (set : σ → α → σ) : OptionRule σ :=
  ⟨long.toList, short?, .value (fun record => (get? record).isSome) fun record s =>
    (read? s).map (set record)⟩

/-- Applies an option that comes without a value. If it needs one, the record stays as it is. -/
def apply (rule : OptionRule σ) (record : σ) : Except Interruption σ :=
  match rule.effect with
  | .flag isSet set =>
    if isSet record then throw (.misuse (.repeated rule.long)) else return set record
  | .value _ _ => return record
  | .interrupt interruption => throw interruption

def needsValue (rule : OptionRule σ) : Bool :=
  match rule.effect with
  | .value _ _ => true
  | _ => false

/-- Applies an option that comes with a value. -/
def applyValue (rule : OptionRule σ) (record : σ) (s : Text) : Except Interruption σ :=
  match rule.effect with
  | .value isSet set =>
    match set record s with
    | none => throw (.misuse (.invalidValue rule.long s))
    | some next => if isSet record then throw (.misuse (.repeated rule.long)) else return next
  | _ => throw (.misuse (.unexpectedValue rule.long))

end OptionRule

/-- The options of an argument list, and what becomes of its operands: each is taken into the
record, or the first is the name of a command that the rest of the list belongs to. -/
structure Grammar (σ : Type) where
  options : List (OptionRule σ)
  operand? : Option (σ → Text → Option σ)

/-- How far an argument list has been read. -/
inductive Reading (σ : Type) where
  /-- An option may come, or an operand. -/
  | ready (record : σ)
  /-- The value of an option comes next. -/
  | awaiting (option : Text) (take : Text → Except Interruption σ)
  /-- Only operands may come. -/
  | operands (record : σ)
  /-- What comes belongs to the command. -/
  | named (record : σ) (name : Text) (args : List Text)

/-- What has been read, if nothing more comes. -/
def Reading.finish : Reading σ → Except Interruption (σ × Option (Text × List Text))
  | .ready record => return (record, none)
  | .awaiting option _ => throw (.misuse (.missingValue option))
  | .operands record => return (record, none)
  | .named record name args => return (record, some (name, args))

namespace Grammar

/-- Whether an argument cannot be an option. -/
def isOperand (arg : Text) : Bool := arg.head? ≠ some '-' || arg = ['-']

def takeOperand (g : Grammar σ) (record : σ) (arg : Text) : Except Interruption σ :=
  match g.operand?.bind fun take => take record arg with
  | some record => return record
  | none => throw (.misuse (.unexpectedArgument arg))

/-- Reads the letters that share a hyphen. -/
def readLetters (g : Grammar σ) : σ → Text → Except Interruption (Reading σ)
  | record, [] => return .ready record
  | record, letter :: letters =>
    match g.options.find? (·.short? = some letter) with
    | none => throw (.misuse (.unknownOption ['-', letter]))
    | some rule =>
      if rule.needsValue then
        match letters with
        | [] => return .awaiting rule.long (rule.applyValue record)
        | '=' :: value => return .ready (← rule.applyValue record value)
        | value => return .ready (← rule.applyValue record value)
      else do
        g.readLetters (← rule.apply record) letters

/-- Reads a long option. -/
def readLong (g : Grammar σ) (record : σ) (s : Text) : Except Interruption (Reading σ) := do
  let (name, value?) :=
    match Text.splitOnce? ['='] s with
    | some (name, value) => (name, some value)
    | none => (s, none)
  match g.options.find? (·.long = name), value? with
  | none, _ => throw (.misuse (.unknownOption ('-' :: '-' :: name)))
  | some rule, some value => return .ready (← rule.applyValue record value)
  | some rule, none =>
    if rule.needsValue then return .awaiting rule.long (rule.applyValue record)
    else return .ready (← rule.apply record)

/-- Reads one argument that is an option. -/
def readOption (g : Grammar σ) (record : σ) (arg : Text) : Except Interruption (Reading σ) :=
  match arg with
  | '-' :: '-' :: s => g.readLong record s
  | '-' :: s => g.readLetters record s
  | _ => throw (.misuse (.unexpectedArgument arg))

/-- Reads the next argument. -/
def step (g : Grammar σ) : Reading σ → Text → Except Interruption (Reading σ)
  | .ready record, arg =>
    if arg = ['-', '-'] then return .operands record
    else if ¬ isOperand arg then g.readOption record arg
    else if g.operand?.isSome then return .ready (← g.takeOperand record arg)
    else return .named record arg []
  | .awaiting option take, arg =>
    if isOperand arg then return .ready (← take arg)
    else throw (.misuse (.missingValue option))
  | .operands record, arg => return .operands (← g.takeOperand record arg)
  | .named record name args, arg => return .named record name (args ++ [arg])

/-- Reads the arguments that come next. -/
def readFrom (g : Grammar σ) (reading : Reading σ) (args : List Text) :
    Except Interruption (Reading σ) :=
  args.foldlM g.step reading

/-- Reads an argument list. Gives the name and the arguments of a command, if it comes to one. -/
def read (g : Grammar σ) (record : σ) (args : List Text) :
    Except Interruption (σ × Option (Text × List Text)) := do
  (← g.readFrom (.ready record) args).finish

end Grammar
end Logmark
