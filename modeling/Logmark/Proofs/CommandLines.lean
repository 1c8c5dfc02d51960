import Logmark.Proofs.ArgumentRecords
import Logmark.Proofs.Options

/-!
Command lines that differ in what becomes of a change. With `--json` or `--dry-run` added anywhere
behind the name of the command where an option may come, a line that has neither asks for the same
command in another mode, and is wrong in the same way if it is wrong.
-/
namespace Logmark

/-- What asks for a mode. -/
def Mode.arguments : Mode → List Text
  | apply => []
  | preview => ["--dry-run".toList]
  | json => ["--json".toList]

/-- The long names of the options that ask for a mode. -/
def Mode.flags : List Text := ["dry-run".toList, "json".toList]

/-- The command in another mode. -/
def Command.withMode (mode : Mode) : Command → Command
  | insert file options => insert file { options with mode }
  | remove file tag? _ => remove file tag? mode
  | command => command

def Invocation.withMode (mode : Mode) (i : Invocation) : Invocation :=
  { i with command := i.command.withMode mode }

open OptionRule (Commutes commutes_flag commutes_value commutes_interrupt)

theorem SharedOptions.commutes_rules {σ : Type} {get : σ → SharedOptions}
    {set : σ → SharedOptions → σ} {change : σ → σ}
    (hget : ∀ record, get (change record) = get record)
    (hset : ∀ record shared, set (change record) shared = change (set record shared)) :
    ∀ rule ∈ SharedOptions.rules get set, rule.Commutes change := by
  simp only [SharedOptions.rules, List.forall_mem_cons]
  refine ⟨?_, ?_, ?_, List.forall_mem_nil _⟩
  · exact commutes_value (fun record => by rw [hget]) fun record path => by rw [hget, hset]
  · exact commutes_flag (fun record => by rw [hget]) fun record => by rw [hget, hset]
  · exact commutes_interrupt _ _ _

/-- Taking the only operand commutes with a change of another part of the record. -/
theorem takeOperand_takeOnce {σ : Type} {g : Grammar σ} {get? : σ → Option Text}
    {set : σ → Text → σ} {change : σ → σ} (hg : g.operand? = some (takeOnce get? set))
    (hget : ∀ record, get? (change record) = get? record)
    (hset : ∀ record arg, set (change record) arg = change (set record arg)) (record : σ)
    (arg : Text) :
    g.takeOperand (change record) arg = (g.takeOperand record arg).map change := by
  simp only [Grammar.takeOperand, hg, Option.bind_some, takeOnce, hget, hset]
  cases (get? record).isSome <;> rfl

/-- What is read from a command line, with another mode for the command. -/
def readInMode (mode : Mode) (read : Except Interruption (SharedOptions × Command)) :
    Except Interruption (SharedOptions × Command) :=
  read.map fun (shared, command) => (shared, command.withMode mode)

/-- How the record of a command that changes a file holds the mode: flags set it, the other
arguments leave it alone, and the command is made with it. -/
structure HasModes {σ : Type} (g : Grammar σ) (empty : σ) (shared : σ → SharedOptions)
    (command : σ → Except UsageError Command) (inMode : Mode → σ → σ) : Prop where
  ownLetters : g.HasOwnLetters
  commutes : ∀ mode, (g.without Mode.flags).Commutes (inMode mode)
  inMode_empty : inMode .apply empty = empty
  arguments : ∀ mode record,
    g.readFrom (.ready (inMode .apply record)) mode.arguments = .ok (.ready (inMode mode record))
  shared_inMode : ∀ mode record, shared (inMode mode record) = shared record
  command_inMode : ∀ mode record,
    command (inMode mode record) = (command (inMode .apply record)).map (·.withMode mode)

/-- Flags for a mode that are added to arguments without any change the mode and nothing else. -/
theorem HasModes.readCommand {σ : Type} {g : Grammar σ} {empty : σ} {shared : σ → SharedOptions}
    {command : σ → Except UsageError Command} {inMode : Mode → σ → σ} {front back : List Text}
    (h : HasModes g empty shared command inMode) (hready : g.ReadyAfter empty front)
    (hwithout : g.DoesWithout Mode.flags empty (front ++ back)) (mode : Mode) :
    g.readCommand empty shared command (front ++ (mode.arguments ++ back)) =
      readInMode mode (g.readCommand empty shared command (front ++ back)) := by
  have hread (mode : Mode) : g.read empty (front ++ (mode.arguments ++ back)) =
      (g.read empty (front ++ back)).map (Reading.mapRecord (inMode mode)) :=
    Grammar.read_extra h.ownLetters (h.commutes .apply) (h.commutes mode) h.inMode_empty
      (h.arguments mode) hready hwithout
  rw [Grammar.readCommand, Grammar.readCommand, hread]
  have hplain : g.read empty (front ++ back) =
      (g.read empty (front ++ back)).map (Reading.mapRecord (inMode .apply)) := hread .apply
  cases hrest : g.read empty (front ++ back) with
  | error interruption => rfl
  | ok read =>
    obtain ⟨record, named?⟩ := read
    have hrecord : inMode .apply record = record := by
      rw [hrest] at hplain
      exact (congrArg Prod.fst (Except.ok.inj hplain)).symm
    have hcommand := h.command_inMode mode record
    rw [hrecord] at hcommand
    simp only [Reading.mapRecord, Prod.map, Except.map, bind, Except.bind, hcommand,
      h.shared_inMode]
    cases command record <;> rfl

namespace InsertArguments

/-- The arguments with the flags that ask for a mode. -/
def inMode (mode : Mode) (a : InsertArguments) : InsertArguments :=
  { a with preview := mode = .preview, json := mode = .json }

theorem commutes_inMode (mode : Mode) : (grammar.without Mode.flags).Commutes (inMode mode) where
  rule rule hrule := by
    obtain ⟨hmem, hkept⟩ := List.mem_filter.1 hrule
    rcases List.mem_append.1 hmem with hshared | hown
    · have hrules : ∀ rule ∈ SharedOptions.rules (σ := InsertArguments) (·.shared)
          fun a shared => { a with shared }, rule.Commutes (inMode mode) :=
        SharedOptions.commutes_rules (fun _ => rfl) fun _ _ => rfl
      exact hrules rule hshared
    · simp only [List.mem_cons, List.not_mem_nil, or_false] at hown
      rcases hown with rfl | rfl | rfl | rfl | rfl | rfl | rfl | rfl
      all_goals first
        | exact commutes_value (fun _ => rfl) fun _ _ => rfl
        | exact absurd hkept (by decide)
  operand := takeOperand_takeOnce rfl (fun _ => rfl) fun _ _ => rfl

theorem hasModes : HasModes grammar empty (·.shared) command inMode where
  ownLetters := by
    rw [Grammar.HasOwnLetters]
    decide +kernel
  commutes := commutes_inMode
  inMode_empty := rfl
  arguments mode _ := by cases mode <;> rfl
  shared_inMode _ _ := rfl
  command_inMode mode a := by
    simp only [command, inMode]
    cases required "FILE" a.file? with
    | error error => rfl
    | ok file =>
      have htarget : ∀ p j, target? { a with preview := p, json := j } = a.target? :=
        fun _ _ => rfl
      simp only [htarget]
      cases a.target? <;> cases mode <;> rfl

theorem command_gives (a : InsertArguments) :
    Gives a.command fun c => ∃ file options, c = .insert file options := by
  intro c hc
  obtain ⟨file, -, hc⟩ := bind_eq_ok hc
  obtain ⟨target?, -, hc⟩ := bind_eq_ok hc
  obtain ⟨mode, -, hc⟩ := bind_eq_ok hc
  exact ⟨file, _, (Except.ok.inj hc).symm⟩

end InsertArguments

namespace RemoveArguments

/-- The arguments with the flags that ask for a mode. -/
def inMode (mode : Mode) (a : RemoveArguments) : RemoveArguments :=
  { a with preview := mode = .preview, json := mode = .json }

theorem commutes_inMode (mode : Mode) : (grammar.without Mode.flags).Commutes (inMode mode) where
  rule rule hrule := by
    obtain ⟨hmem, hkept⟩ := List.mem_filter.1 hrule
    rcases List.mem_append.1 hmem with hshared | hown
    · have hrules : ∀ rule ∈ SharedOptions.rules (σ := RemoveArguments) (·.shared)
          fun a shared => { a with shared }, rule.Commutes (inMode mode) :=
        SharedOptions.commutes_rules (fun _ => rfl) fun _ _ => rfl
      exact hrules rule hshared
    · simp only [List.mem_cons, List.not_mem_nil, or_false] at hown
      rcases hown with rfl | rfl | rfl
      all_goals first
        | exact commutes_value (fun _ => rfl) fun _ _ => rfl
        | exact absurd hkept (by decide)
  operand := takeOperand_takeOnce rfl (fun _ => rfl) fun _ _ => rfl

theorem hasModes : HasModes grammar empty (·.shared) command inMode where
  ownLetters := by
    rw [Grammar.HasOwnLetters]
    decide +kernel
  commutes := commutes_inMode
  inMode_empty := rfl
  arguments mode _ := by cases mode <;> rfl
  shared_inMode _ _ := rfl
  command_inMode mode a := by
    simp only [command, inMode]
    cases required "FILE" a.file? <;> cases mode <;> rfl

theorem command_gives (a : RemoveArguments) :
    Gives a.command fun c => ∃ file tag? mode, c = .remove file tag? mode := by
  intro c hc
  obtain ⟨file, -, hc⟩ := bind_eq_ok hc
  obtain ⟨mode, -, hc⟩ := bind_eq_ok hc
  exact ⟨file, _, _, (Except.ok.inj hc).symm⟩

end RemoveArguments

namespace Invocation

variable {before front back rest : List Text} {name : Text}

/-- Where the name of a command may come, what stands before it and what stands behind it are read
by themselves. -/
theorem exists_ofArguments_eq (h : grammar.ReadyAfter .empty before)
    (hname : Grammar.isOperand name = true) :
    ∃ shared : Except Interruption SharedOptions, ∀ rest, ofArguments (before ++ name :: rest) =
      shared >>= fun shared => (Command.ofArguments name rest).map fun (behind, command) =>
        ⟨behind.settings? <|> shared.settings?, command⟩ := by
  cases hbefore : grammar.readFrom (.ready .empty) before with
  | error interruption =>
    refine ⟨.error interruption, fun rest => ?_⟩
    rw [ofArguments, Grammar.read_append, hbefore]
    rfl
  | ok reading =>
    obtain ⟨shared, rfl⟩ := h reading hbefore
    refine ⟨.ok shared, fun rest => ?_⟩
    have hdashes : name ≠ ['-', '-'] := by
      rintro rfl
      cases hname
    have hstep : grammar.step (.ready shared) name = .ok (.named shared name []) := by
      rw [Grammar.step, if_neg hdashes, if_neg (not_not_intro hname)]
      rfl
    have hread : grammar.read .empty (before ++ name :: rest) = .ok (shared, some (name, rest)) := by
      rw [Grammar.read_append_of_ready hbefore, Grammar.read, Grammar.readFrom, List.foldlM_cons,
        hstep]
      exact congrArg (· >>= Reading.finish) (Grammar.readFrom_named shared name [] rest)
    rw [ofArguments, hread]
    simp only [bind, Except.bind]
    cases Command.ofArguments name rest <;> rfl

/-- If the arguments of a command are read alike in all modes, so are command lines. -/
theorem ofArguments_arguments (h : grammar.ReadyAfter .empty before)
    (hname : Grammar.isOperand name = true) {mode : Mode} {args : List Text}
    (hread : Command.ofArguments name args = readInMode mode (Command.ofArguments name rest)) :
    ofArguments (before ++ name :: args) =
      (ofArguments (before ++ name :: rest)).map (withMode mode) := by
  obtain ⟨shared, hargs⟩ := exists_ofArguments_eq h hname
  rw [hargs, hargs, hread]
  cases shared with
  | error interruption => rfl
  | ok shared => cases Command.ofArguments name rest <;> rfl

/-- Flags that are added behind `insert` change the mode and nothing else. -/
theorem ofArguments_insert (h : grammar.ReadyAfter .empty before)
    (hready : InsertArguments.grammar.ReadyAfter .empty front)
    (hwithout : InsertArguments.grammar.DoesWithout Mode.flags .empty (front ++ back))
    (mode : Mode) :
    ofArguments (before ++ "insert".toList :: (front ++ (mode.arguments ++ back))) =
      (ofArguments (before ++ "insert".toList :: (front ++ back))).map (withMode mode) := by
  refine ofArguments_arguments h (by decide) ?_
  simp only [Command.ofArguments, if_pos]
  exact InsertArguments.hasModes.readCommand hready hwithout mode

/-- Flags that are added behind `remove` change the mode and nothing else. -/
theorem ofArguments_remove (h : grammar.ReadyAfter .empty before)
    (hready : RemoveArguments.grammar.ReadyAfter .empty front)
    (hwithout : RemoveArguments.grammar.DoesWithout Mode.flags .empty (front ++ back))
    (mode : Mode) :
    ofArguments (before ++ "remove".toList :: (front ++ (mode.arguments ++ back))) =
      (ofArguments (before ++ "remove".toList :: (front ++ back))).map (withMode mode) := by
  refine ofArguments_arguments h (by decide) ?_
  have hinsert : "remove".toList ≠ "insert".toList := by decide
  simp only [Command.ofArguments, if_pos, if_neg hinsert]
  exact RemoveArguments.hasModes.readCommand hready hwithout mode

/-- The command of an invocation is the one that the arguments behind its name ask for. -/
theorem command_eq (h : grammar.ReadyAfter .empty before) (hname : Grammar.isOperand name = true)
    {i : Invocation} (hi : ofArguments (before ++ name :: rest) = .ok i) :
    ∃ behind, Command.ofArguments name rest = .ok (behind, i.command) := by
  obtain ⟨shared, hargs⟩ := exists_ofArguments_eq h hname
  rw [hargs] at hi
  obtain ⟨shared, rfl, hi⟩ := bind_eq_ok hi
  cases hread : Command.ofArguments name rest with
  | error interruption =>
    rw [hread] at hi
    cases hi
  | ok read =>
    rw [hread] at hi
    cases hi
    exact ⟨read.1, rfl⟩

theorem command_of_insert (h : grammar.ReadyAfter .empty before) {i : Invocation}
    (hi : ofArguments (before ++ "insert".toList :: rest) = .ok i) :
    ∃ file options, i.command = .insert file options := by
  obtain ⟨behind, hread⟩ := command_eq h (by decide) hi
  simp only [Command.ofArguments, if_pos] at hread
  exact Grammar.readCommand_gives (P := fun _ => True) (fun _ _ => trivial)
    (fun a _ => a.command_gives) _ hread

theorem command_of_remove (h : grammar.ReadyAfter .empty before) {i : Invocation}
    (hi : ofArguments (before ++ "remove".toList :: rest) = .ok i) :
    ∃ file tag? mode, i.command = .remove file tag? mode := by
  have hinsert : "remove".toList ≠ "insert".toList := by decide
  obtain ⟨behind, hread⟩ := command_eq h (by decide) hi
  simp only [Command.ofArguments, if_pos, if_neg hinsert] at hread
  exact Grammar.readCommand_gives (P := fun _ => True) (fun _ _ => trivial)
    (fun a _ => a.command_gives) _ hread

end Invocation
end Logmark
