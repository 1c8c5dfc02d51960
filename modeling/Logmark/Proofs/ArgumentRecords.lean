import Logmark.Command.Arguments
import Logmark.Proofs.Results

/-!
What holds of the record that an argument list is read into. A property of the empty record that no
option and no operand breaks is one of every record that is read.
-/
namespace Logmark

variable {σ τ : Type} {P : σ → Prop}

namespace OptionRule

variable {long : String} {short? : Option Char}

/-- No use of an option breaks a property of the record. -/
structure Keeps (P : σ → Prop) (rule : OptionRule σ) : Prop where
  apply : ∀ record, P record → Gives (rule.apply record) P
  applyValue : ∀ record s, P record → Gives (rule.applyValue record s) P

theorem keeps_flag {get : σ → Bool} {set : σ → σ} (hset : ∀ record, P record → P (set record)) :
    Keeps P (flag long short? get set) where
  apply record h := by
    simp only [OptionRule.apply, flag]
    split
    · exact .error _
    · exact .ok (hset record h)
  applyValue _ _ _ := .error _

/-- An option with a value keeps what setting the value keeps, if the value is one that is read. -/
theorem keeps_value {read? : Text → Option τ} {get? : σ → Option τ} {set : σ → τ → σ}
    (hset : ∀ record s a, P record → read? s = some a → P (set record a)) :
    Keeps P (value long short? read? get? set) where
  apply _ h := .ok h
  applyValue record s h := by
    simp only [OptionRule.applyValue, value]
    cases hread : read? s with
    | none => exact .error _
    | some a =>
      simp only [Option.map_some]
      split
      · exact .error _
      · exact .ok (hset record s a h hread)

theorem keeps_interrupt (long : Text) (short? : Option Char) (interruption : Interruption) :
    Keeps P ⟨long, short?, .interrupt interruption⟩ :=
  ⟨fun _ _ => .error _, fun _ _ _ => .error _⟩

end OptionRule

theorem SharedOptions.keeps_rules {get : σ → SharedOptions} {set : σ → SharedOptions → σ}
    (hset : ∀ record shared, P record → P (set record shared)) :
    ∀ rule ∈ SharedOptions.rules get set, rule.Keeps P := by
  simp only [SharedOptions.rules, List.forall_mem_cons]
  refine ⟨?_, ?_, ?_, nofun⟩
  · exact OptionRule.keeps_value fun record _ _ h _ => hset record _ h
  · exact OptionRule.keeps_flag fun record h => hset record _ h
  · exact OptionRule.keeps_interrupt _ _ _

/-- Whatever comes next, the record that has been read has a property. -/
def Reading.Holds (P : σ → Prop) : Reading σ → Prop
  | ready record => P record
  | awaiting _ take => ∀ s, Gives (take s) P
  | operands record => P record
  | named record _ _ => P record

theorem Reading.Holds.finish {reading : Reading σ} (h : reading.Holds P) :
    Gives reading.finish fun read => P read.1 := by
  cases reading with
  | ready record => exact .ok h
  | awaiting option take => exact .error _
  | operands record => exact .ok h
  | named record name args => exact .ok h

namespace Grammar

variable {g : Grammar σ} {record : σ}

/-- Neither an option nor an operand breaks a property of the record. -/
structure Keeps (P : σ → Prop) (g : Grammar σ) : Prop where
  rule : ∀ rule ∈ g.options, rule.Keeps P
  operand : ∀ record arg, P record → Gives (g.takeOperand record arg) P

/-- Taking the only operand keeps what setting it keeps. -/
theorem takeOperand_gives {get? : σ → Option Text} {set : σ → Text → σ}
    (hg : g.operand? = some (takeOnce get? set)) (hset : ∀ arg, P (set record arg)) (arg : Text) :
    Gives (g.takeOperand record arg) P := by
  simp only [takeOperand, hg, Option.bind_some, takeOnce]
  cases (get? record).isSome
  · exact .ok (hset arg)
  · exact .error _

namespace Keeps

theorem readLetters (h : g.Keeps P) (hrecord : P record) (letters : Text) :
    Gives (g.readLetters record letters) (·.Holds P) := by
  induction letters generalizing record with
  | nil => exact .ok hrecord
  | cons letter letters ih =>
    rw [Grammar.readLetters]
    cases hfind : g.options.find? (·.short? = some letter) with
    | none => exact .error _
    | some rule =>
      have hrule := h.rule rule (List.mem_of_find?_eq_some hfind)
      dsimp only
      split
      · split
        · exact .ok fun s => hrule.applyValue record s hrecord
        · exact (hrule.applyValue record _ hrecord).bind fun _ hnext => .ok hnext
        · exact (hrule.applyValue record _ hrecord).bind fun _ hnext => .ok hnext
      · exact (hrule.apply record hrecord).bind fun _ hnext => ih hnext

theorem readLong (h : g.Keeps P) (hrecord : P record) (s : Text) :
    Gives (g.readLong record s) (·.Holds P) := by
  unfold Grammar.readLong
  split
  rename_i name value? _
  cases hfind : g.options.find? (·.long = name) with
  | none => exact .error _
  | some rule =>
    have hrule := h.rule rule (List.mem_of_find?_eq_some hfind)
    cases value? with
    | some value => exact (hrule.applyValue record value hrecord).bind fun _ hnext => .ok hnext
    | none =>
      dsimp only
      split
      · exact .ok fun s => hrule.applyValue record s hrecord
      · exact (hrule.apply record hrecord).bind fun _ hnext => .ok hnext

theorem readOption (h : g.Keeps P) (hrecord : P record) (arg : Text) :
    Gives (g.readOption record arg) (·.Holds P) := by
  unfold Grammar.readOption
  split
  · exact h.readLong hrecord _
  · exact h.readLetters hrecord _
  · exact .error _

/-- The next argument leaves the record with the property. -/
theorem step (h : g.Keeps P) {reading : Reading σ} (hreading : reading.Holds P) (arg : Text) :
    Gives (g.step reading arg) (·.Holds P) := by
  cases reading with
  | ready record =>
    rw [Grammar.step]
    split
    · exact .ok hreading
    split
    · exact h.readOption hreading arg
    split
    · exact (h.operand record arg hreading).bind fun _ hnext => .ok hnext
    · exact .ok hreading
  | awaiting option take =>
    rw [Grammar.step]
    split
    · exact (hreading arg).bind fun _ hnext => .ok hnext
    · exact .error _
  | operands record => exact (h.operand record arg hreading).bind fun _ hnext => .ok hnext
  | named record name args => exact .ok hreading

theorem readFrom (h : g.Keeps P) {reading : Reading σ} (hreading : reading.Holds P)
    (args : List Text) : Gives (g.readFrom reading args) (·.Holds P) := by
  induction args generalizing reading with
  | nil => exact .ok hreading
  | cons arg args ih => exact (h.step hreading arg).bind fun _ hnext => ih hnext

theorem read (h : g.Keeps P) (hrecord : P record) (args : List Text) :
    Gives (g.read record args) fun read => P read.1 := by
  have hready : (Reading.ready record).Holds P := hrecord
  exact (h.readFrom hready args).bind fun _ hreading => hreading.finish

end Keeps

/-- The command that arguments ask for is the one of a record that they are read into. -/
theorem readCommand_gives {empty : σ} {shared : σ → SharedOptions}
    {command : σ → Except UsageError Command} {Q : Command → Prop} {args : List Text}
    (hread : Gives (g.read empty args) fun read => P read.1)
    (hcommand : ∀ record, P record → Gives (command record) Q) :
    Gives (g.readCommand empty shared command args) fun read => Q read.2 :=
  hread.bind fun (record, _) hrecord => by
    refine Gives.bind (P := Q) (fun c hc => ?_) fun c hc => .ok hc
    cases hresult : command record with
    | error error =>
      rw [hresult] at hc
      cases hc
    | ok c' =>
      rw [hresult] at hc
      cases hc
      exact hcommand record hrecord c hresult

end Grammar
end Logmark
