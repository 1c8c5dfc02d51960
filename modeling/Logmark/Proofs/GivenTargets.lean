import Logmark.Proofs.Addresses
import Logmark.Proofs.CommandLines
import Logmark.Proofs.Planning
import Logmark.Proofs.TextExtraction

/-!
Targets that come from a command line. A line that a user writes is counted from one and is a count,
so the line that is meant can be counted from one again; a line that the document does not have is
reported by the number that was written.
-/
namespace Logmark

open Text

namespace Text

variable {s : Text} {p q : Position} {r : Range}

/-- The line number in the text of a position: the number that the digits before the colon spell. -/
def lineNumber (s : Text) : Nat :=
  Nat.ofDigitChars 10 ((s.takeWhile (· != ':')).filter Char.isDigit) 0

/-- The largest line number in the text of a range. -/
def largestLineNumber (s : Text) : Nat := ((pieces (· == '-') s).map lineNumber).foldr max 0

theorem filter_isDigit_of_allBlank (h : allBlank s = true) : s.filter Char.isDigit = [] := by
  refine List.filter_eq_nil_iff.2 fun c hc hdigit => ?_
  have hblank := allBlank_iff.1 h c hc
  rw [isBlank_of_isDigit hdigit] at hblank
  contradiction

theorem not_mem_of_allBlank {c : Char} (h : allBlank s = true) (hc : isBlank c = false) :
    c ∉ s := by
  intro hmem
  have hblank := allBlank_iff.1 h c hmem
  rw [hc] at hblank
  contradiction

theorem WritesNumber.value {n : Nat} (h : WritesNumber n s) :
    Nat.ofDigitChars 10 (s.filter Char.isDigit) 0 = n := by
  obtain ⟨digits, hs, -, hdigits, hvalue, -⟩ := h
  have hfilter : s.filter Char.isDigit = digits := by
    rcases hs with rfl | rfl
    · exact List.filter_eq_self.2 hdigits
    · rw [List.filter_cons_of_neg (by decide), List.filter_eq_self.2 hdigits]
  rw [hfilter, hvalue]

/-- Blanks around an address do not change the line number in it. -/
theorem lineNumber_of_isAddress (h : p.IsAddress (trim s)) : lineNumber s = p.line + 1 := by
  obtain ⟨w, w', hw, hw', hs⟩ := exists_append_trim s
  have hcolon : ∀ t : Text, allBlank t = true → ∀ c ∈ t, (c != ':') = true := fun t ht c hc =>
    bne_iff_ne.2 (ne_of_mem_of_not_mem hc (not_mem_of_allBlank ht (by decide)))
  rw [lineNumber, hs, List.append_assoc, List.takeWhile_append_of_pos (hcolon w hw),
    List.filter_append, filter_isDigit_of_allBlank hw, List.nil_append]
  generalize trim s = t at h
  cases h with
  | line hline _ =>
    have hfree : ∀ c ∈ t, (c != ':') = true := fun c hc =>
      bne_iff_ne.2 (ne_of_mem_of_not_mem hc (hline.not_mem (by decide) (by decide)))
    rw [List.takeWhile_append_of_pos hfree, List.takeWhile_eq_self_iff.2 (hcolon w' hw'),
      List.filter_append, filter_isDigit_of_allBlank hw', List.append_nil, hline.value]
  | @lineColumn a b hline _ =>
    have hfree : ∀ c ∈ a, (c != ':') = true := fun c hc =>
      bne_iff_ne.2 (ne_of_mem_of_not_mem hc (hline.not_mem (by decide) (by decide)))
    rw [List.append_assoc, List.cons_append, List.takeWhile_append_of_pos hfree,
      List.takeWhile_cons_of_neg (by decide), List.append_nil, hline.value]

theorem largestLineNumber_of_not_mem (h : '-' ∉ s) : largestLineNumber s = lineNumber s := by
  have hfree : ∀ c ∈ s, (c == '-') = false := fun c hc =>
    beq_false_of_ne (ne_of_mem_of_not_mem hc h)
  rw [largestLineNumber, pieces_of_forall_not hfree]
  exact Nat.max_zero _

theorem largestLineNumber_append_cons {a b : Text} (ha : '-' ∉ a) (hb : '-' ∉ b) :
    largestLineNumber (a ++ '-' :: b) = max (lineNumber a) (lineNumber b) := by
  have hfree : ∀ c ∈ a, (c == '-') = false := fun c hc =>
    beq_false_of_ne (ne_of_mem_of_not_mem hc ha)
  rw [← largestLineNumber_of_not_mem hb, largestLineNumber, pieces_append_cons hfree rfl]
  rfl

/-- No hyphen is in the text of one position. -/
theorem hyphen_not_mem_of_isAddress (h : p.IsAddress (trim s)) : '-' ∉ s := by
  obtain ⟨w, w', hw, hw', hs⟩ := exists_append_trim s
  have hblank : isBlank '-' = false := by decide
  rw [hs]
  simp [not_mem_of_allBlank hw hblank, not_mem_of_allBlank hw' hblank,
    h.not_mem (c := '-') (by decide) (by decide) (by decide)]

end Text

theorem Position.IsAddress.line_lt {p : Position} {s : Text} (h : p.IsAddress s) :
    p.line < maxCount := by
  have hline : ∀ t, WritesNumber (p.line + 1) t → p.line < maxCount := by
    rintro _ ⟨-, -, -, -, -, -, hle⟩
    exact hle
  cases h with
  | line h _ => exact hline _ h
  | lineColumn h _ => exact hline _ h

theorem lineNumber?_eq_some_iff {line number : Nat} :
    lineNumber? line = some number ↔ line < maxCount ∧ line + 1 = number := by
  rw [lineNumber?]
  split
  · rename_i hlt
    rw [Option.some.injEq, iff_and_self]
    exact fun _ => hlt
  · rename_i hle
    exact ⟨nofun, fun h => absurd h.1 hle⟩

/-- The targets that a command line gives: the range in a text, or the line of a position in a text
with an expression. -/
inductive Target.GivenBy (s : Text) : Target → Prop
  | selection {r : Range} : Range.ofAddresses s = .ok r → GivenBy s (.selection r)
  | line {p : Position} (expression : Text) : Position.ofAddress s = .ok p →
      GivenBy s (.expression p.line expression)

namespace Target.GivenBy

variable {s : Text} {target : Target}

/-- The line of the cursor, counted from one, is a count and the largest line number in the text. -/
theorem lineNumber?_eq_some (h : target.GivenBy s) :
    lineNumber? target.cursor.line = some (largestLineNumber s) := by
  rw [lineNumber?_eq_some_iff]
  cases h with
  | selection hr =>
    have haddresses := Range.ofAddresses_eq_ok_iff.1 hr
    clear hr
    cases haddresses with
    | point hhyphen hp hr =>
      rw [largestLineNumber_of_not_mem hhyphen, lineNumber_of_isAddress hp, hr]
      exact ⟨hp.line_lt, rfl⟩
    | span hhyphen hp hq hle hr =>
      rw [largestLineNumber_append_cons hhyphen (hyphen_not_mem_of_isAddress hq),
        lineNumber_of_isAddress hp, lineNumber_of_isAddress hq]
      have hplt := hp.line_lt
      have hqlt := hq.line_lt
      rw [Position.le_def] at hle
      rcases hr with rfl | rfl <;> simp only [cursor] at hle ⊢ <;> omega
  | line expression hp =>
    have haddress := Position.ofAddress_eq_ok_iff.1 hp
    rw [largestLineNumber_of_not_mem (hyphen_not_mem_of_isAddress haddress),
      lineNumber_of_isAddress haddress]
    exact ⟨haddress.line_lt, rfl⟩

end Target.GivenBy

namespace InsertArguments

/-- The selection and the line of a record are read from texts. -/
structure FromTexts (a : InsertArguments) : Prop where
  selection : ∀ r, a.selection? = some r → ∃ s, Range.ofAddresses s = .ok r
  line : ∀ p, a.line? = some p → ∃ s, Position.ofAddress s = .ok p

theorem keeps_fromTexts : grammar.Keeps FromTexts where
  rule rule hrule := by
    rcases List.mem_append.1 hrule with hshared | hown
    · have hrules : ∀ rule ∈ SharedOptions.rules (σ := InsertArguments) (·.shared)
          fun a shared => { a with shared }, rule.Keeps FromTexts :=
        SharedOptions.keeps_rules fun _ _ h => ⟨h.selection, h.line⟩
      exact hrules rule hshared
    · simp only [List.mem_cons, List.not_mem_nil, or_false] at hown
      rcases hown with rfl | rfl | rfl | rfl | rfl | rfl | rfl | rfl
      · refine OptionRule.keeps_value fun _ s r h hread => ⟨?_, h.line⟩
        rintro _ ⟨⟩
        exact ⟨s, toOption_eq_some_iff.1 hread⟩
      · refine OptionRule.keeps_value fun _ s p h hread => ⟨h.selection, ?_⟩
        rintro _ ⟨⟩
        exact ⟨s, toOption_eq_some_iff.1 hread⟩
      -- The other options leave both alone.
      all_goals first
        | exact OptionRule.keeps_value fun _ _ _ h _ => ⟨h.selection, h.line⟩
        | exact OptionRule.keeps_flag fun _ h => ⟨h.selection, h.line⟩
  operand _ arg h := Grammar.takeOperand_gives rfl (fun _ => ⟨h.selection, h.line⟩) arg

theorem fromTexts_empty : FromTexts .empty := by
  constructor <;> rintro _ ⟨⟩

theorem FromTexts.target? {a : InsertArguments} (h : a.FromTexts) {target : Target}
    (htarget : a.target? = .ok (some target)) : ∃ s, target.GivenBy s := by
  rw [InsertArguments.target?] at htarget
  split at htarget <;> cases htarget
  · rename_i r hr _ _
    obtain ⟨s, hs⟩ := h.selection r hr
    exact ⟨s, .selection hs⟩
  · rename_i p expression _ hp _
    obtain ⟨s, hs⟩ := h.line p hp
    exact ⟨s, .line expression hs⟩

theorem FromTexts.command_gives {a : InsertArguments} (h : a.FromTexts) : Gives a.command fun c =>
    ∀ file options target, c = .insert file options → options.target? = some target →
      ∃ s, target.GivenBy s := by
  rintro c hc file options target rfl htarget
  obtain ⟨file, -, hc⟩ := bind_eq_ok hc
  obtain ⟨target?, hgiven, hc⟩ := bind_eq_ok hc
  obtain ⟨mode, -, hc⟩ := bind_eq_ok hc
  cases hc
  cases htarget
  exact h.target? hgiven

end InsertArguments

/-- Other commands insert nothing. -/
theorem Grammar.readCommand_gives_other {σ : Type} {g : Grammar σ} {empty : σ}
    {shared : σ → SharedOptions} {command : σ → Except UsageError Command} {args : List Text}
    {Q : SharedOptions × Command → Prop}
    (h : ∀ a, Gives (command a) fun c => ∀ behind, Q (behind, c)) :
    Gives (g.readCommand empty shared command args) Q := fun read hread =>
  Grammar.readCommand_gives (P := fun _ => True) (fun _ _ => trivial) (fun a _ => h a) read hread
    read.1

/-- The target of a command line is one that a text gives. -/
theorem Command.ofArguments_gives (name : Text) (args : List Text) :
    Gives (Command.ofArguments name args) fun read => ∀ file options target,
      read.2 = .insert file options → options.target? = some target → ∃ s, target.GivenBy s := by
  unfold Command.ofArguments
  split
  · have hkept := InsertArguments.keeps_fromTexts.read InsertArguments.fromTexts_empty args
    exact Grammar.readCommand_gives hkept fun _ => InsertArguments.FromTexts.command_gives
  split
  · refine Grammar.readCommand_gives_other fun a c hc => ?_
    obtain ⟨file, tag?, mode, rfl⟩ := a.command_gives c hc
    rintro _ _ _ _ ⟨⟩
  split
  · refine Grammar.readCommand_gives_other fun a c hc => ?_
    obtain ⟨outline, -, hc⟩ := bind_eq_ok hc
    obtain ⟨position, -, hc⟩ := bind_eq_ok hc
    cases hc
    rintro _ _ _ _ ⟨⟩
  split
  · refine Grammar.readCommand_gives_other fun a c hc => ?_
    rw [TagArguments.command] at hc
    split at hc <;> cases hc <;> rintro _ _ _ _ ⟨⟩
  split
  · split
    · exact .error _
    · split
      · exact .error _
      · exact .error _
  · exact .error _

theorem Invocation.ofArguments_gives (args : List Text) :
    Gives (Invocation.ofArguments args) fun i => ∀ file options target,
      i.command = .insert file options → options.target? = some target → ∃ s, target.GivenBy s := by
  intro i hi
  obtain ⟨⟨before, named?⟩, -, hi⟩ := bind_eq_ok hi
  cases named? with
  | none => cases hi
  | some named =>
    obtain ⟨name, args⟩ := named
    obtain ⟨⟨behind, command⟩, hcommand, hi⟩ := bind_eq_ok hi
    cases hi
    exact Command.ofArguments_gives name args _ hcommand

/-- The message for a line that the document does not have tells its number. -/
theorem InsertionError.message_pastEnd (number lineCount : Nat) :
    (pastEnd number lineCount).message = "Invalid position: line ".toList ++ numeral number ++
      (" is past the end of the document (".toList ++ numeral lineCount ++ " lines)".toList) := by
  have hstart : "Invalid position: line ".toList =
      "Invalid position: ".toList ++ "line ".toList := rfl
  have happend (t u v w x y : Text) :
      t ++ (u ++ v ++ w ++ x ++ y) = t ++ u ++ v ++ (w ++ x ++ y) := by
    simp only [List.append_assoc]
  rw [hstart]
  exact happend _ _ _ _ _ _

namespace Document

/-- An insertion is planned without a number that is too large for a count. If the document has no
line with the `number`, and only then, the plan fails for the place of the target, with a message
that has the number in it. -/
structure PlansLine (d : Document) (target : Target) (context : InsertionContext) (number : Nat) :
    Prop where
  lineNumber? : lineNumber? target.cursor.line = some number
  number_le : number ≤ maxCount
  insertionLine_le : ∀ selected entry, d.planInsertion target context = .ok (selected, entry) →
    entry.insertionLine ≤ maxCount
  pastEnd : d.lineCount < number →
    d.planInsertion target context = .error (.pastEnd number d.lineCount) ∧
      (InsertionError.pastEnd number d.lineCount).message =
        "Invalid position: line ".toList ++ numeral number ++
          (" is past the end of the document (".toList ++ numeral d.lineCount ++ " lines)".toList)
  inside : number ≤ d.lineCount → ∀ error, d.planInsertion target context = .error error →
    error = .emptySelection ∨ error = .multiLineSelection

theorem lineCount_le (d : Document) : d.lineCount ≤ width d.text + 1 := by
  have hcount : d.text.countP (· == '\n') ≤ d.text.length := List.countP_le_length
  have hwidth := length_le_width d.text
  rw [lineCount, lines, length_pieces]
  omega

theorem offsetAt_le_width (d : Document) (p : Position) : d.offsetAt p ≤ width d.text :=
  (d.cutAt_offsetAt p).le_width

theorem plansLine (d : Document) {target : Target} (context : InsertionContext) {number : Nat}
    (h : lineNumber? target.cursor.line = some number) : d.PlansLine target context number := by
  obtain ⟨hlt, rfl⟩ := lineNumber?_eq_some_iff.1 h
  refine ⟨h, Nat.succ_le_of_lt hlt, fun selected entry hplan => ?_, fun hpast => ⟨?_, ?_⟩,
    fun hinside error hplan => ?_⟩
  · obtain ⟨-, -, -, -, rfl⟩ := planInsertion_eq_ok_iff.1 hplan
    exact Nat.min_le_right _ _
  · rw [planInsertion_of_le (Nat.le_of_lt_succ hpast), h]
  · exact InsertionError.message_pastEnd _ _
  · rw [planInsertion_of_lt hinside] at hplan
    split at hplan
    · cases hplan
      exact .inl rfl
    split at hplan
    · cases hplan
      exact .inr rfl
    · cases hplan

/-- Every target of a command line is given by a text, and the largest line number in that text is
the number that a plan is made or refused with. The other numbers of a plan, those of the document,
are bounded by the size of its text. -/
theorem plansLine_of_givenBy :
    (∀ args i file options target, Invocation.ofArguments args = .ok i →
      i.command = .insert file options → options.target? = some target →
      ∃ s, target.GivenBy s) ∧
    (∀ (d : Document) (target : Target) (context : InsertionContext) (s : Text),
      target.GivenBy s → d.PlansLine target context (largestLineNumber s)) ∧
    ∀ d : Document, d.lineCount ≤ width d.text + 1 ∧ ∀ p, d.offsetAt p ≤ width d.text :=
  ⟨fun args i file options target hi => Invocation.ofArguments_gives args i hi file options target,
    fun d _ context _ h => plansLine d context h.lineNumber?_eq_some,
    fun d => ⟨lineCount_le d, offsetAt_le_width d⟩⟩

/-- The largest line number that can be written, past the end of a short document. -/
theorem plansLine_of_givenBy_pastEnd :
    let args := ["insert".toList, "-s".toList, "2:5-18446744073709551615".toList, "a.js".toList]
    let target : Target := .selection ⟨⟨1, 4⟩, ⟨18446744073709551614, 0⟩⟩
    let options : InsertOptions := ⟨some target, none, none, none, .apply⟩
    let d := Document.ofText "a\nb".toList
    Invocation.ofArguments args = .ok ⟨none, .insert "a.js".toList options⟩ ∧
      (∃ s, target.GivenBy s) ∧
      d.planInsertion target ⟨[], [], [], .standard⟩ = .error (.pastEnd maxCount 2) := by
  intro args target options d
  have hread : Invocation.ofArguments args = .ok ⟨none, .insert "a.js".toList options⟩ := rfl
  obtain ⟨hgiven, hplan, -⟩ := plansLine_of_givenBy
  have htarget : target.GivenBy "2:5-18446744073709551615".toList := .selection rfl
  have hnumber : largestLineNumber "2:5-18446744073709551615".toList = maxCount := by decide
  have hpast := (hplan d target ⟨[], [], [], .standard⟩ _ htarget).pastEnd
  rw [hnumber] at hpast
  exact ⟨hread, hgiven args _ _ options target hread rfl rfl, (hpast (by decide)).1⟩

end Document
end Logmark
