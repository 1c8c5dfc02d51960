import Logmark.Command.Arguments
import Logmark.Proofs.Results

/-!
Options that are added to an argument list. An option that the list does without can be set before
the list is read as well as afterwards, since no other option asks for it.
-/
namespace Logmark

variable {σ τ ρ : Type}

namespace OptionRule

variable {change : σ → σ} {long : String} {short? : Option Char}

/-- How an option is written. -/
def spellings (rule : OptionRule σ) : List Text :=
  ('-' :: '-' :: rule.long) :: rule.short?.toList.map fun letter => ['-', letter]

/-- A change of the record can be made before an option is read as well as afterwards. -/
structure Commutes (change : σ → σ) (rule : OptionRule σ) : Prop where
  apply : ∀ record, rule.apply (change record) = (rule.apply record).map change
  applyValue : ∀ record s,
    rule.applyValue (change record) s = (rule.applyValue record s).map change

theorem commutes_flag {get : σ → Bool} {set : σ → σ}
    (hget : ∀ record, get (change record) = get record)
    (hset : ∀ record, set (change record) = change (set record)) :
    Commutes change (flag long short? get set) where
  apply record := by
    simp only [OptionRule.apply, flag, hget, hset]
    split <;> rfl
  applyValue _ _ := rfl

theorem commutes_value {read? : Text → Option τ} {get? : σ → Option τ} {set : σ → τ → σ}
    (hget : ∀ record, get? (change record) = get? record)
    (hset : ∀ record a, set (change record) a = change (set record a)) :
    Commutes change (value long short? read? get? set) where
  apply _ := rfl
  applyValue record s := by
    simp only [OptionRule.applyValue, value, hget]
    cases read? s with
    | none => rfl
    | some a =>
      simp only [Option.map_some, hset]
      split <;> rfl

theorem commutes_interrupt (long : Text) (short? : Option Char) (interruption : Interruption) :
    Commutes change ⟨long, short?, .interrupt interruption⟩ := ⟨fun _ => rfl, fun _ _ => rfl⟩

end OptionRule

namespace Grammar

variable {g : Grammar σ} {names : List Text} {record : σ} {args : List Text}

/-- The grammar that lacks the options with some long names. -/
def without (g : Grammar σ) (names : List Text) : Grammar σ :=
  { g with options := g.options.filter (·.long ∉ names) }

/-- An option of `g` that is in the way of reading without it is complained of as unknown. -/
inductive Misses (g : Grammar σ) (names : List Text) : Interruption → Prop where
  | unknown {rule : OptionRule σ} {s : Text} : rule ∈ g.options → rule.long ∈ names →
    s ∈ rule.spellings → Misses g names (.misuse (.unknownOption s))

/-- The options with some long names are not in an argument list: a grammar that lacks them does not
miss them. -/
def DoesWithout (g : Grammar σ) (names : List Text) (record : σ) (args : List Text) : Prop :=
  ∀ interruption, (g.without names).read record args = .error interruption →
    ¬ Misses g names interruption

/-- No letter stands for two options. -/
def HasOwnLetters (g : Grammar σ) : Prop :=
  ∀ rule ∈ g.options, ∀ other ∈ g.options, rule.short?.isSome → rule.short? = other.short? →
    rule.long = other.long

/-- What is read with the full grammar is read without some options, unless they are missed. -/
def Agrees (g : Grammar σ) (names : List Text) (full lacking : Except Interruption ρ) : Prop :=
  full = lacking ∨ ∃ interruption, lacking = .error interruption ∧ Misses g names interruption

theorem Agrees.bind {full lacking : Except Interruption ρ} {f f' : ρ → Except Interruption τ}
    (h : Agrees g names full lacking) (hf : ∀ a, Agrees g names (f a) (f' a)) :
    Agrees g names (full >>= f) (lacking >>= f') := by
  rcases h with rfl | ⟨interruption, rfl, hmisses⟩
  · cases full with
    | error interruption => exact .inl rfl
    | ok a => exact hf a
  · exact .inr ⟨interruption, rfl, hmisses⟩

/-- An option is found without others, or it is one of those that are lacking. -/
theorem find?_without (p : OptionRule σ → Bool)
    (h : ∀ rule ∈ g.options, ∀ other ∈ g.options, p rule = true → p other = true →
      rule.long = other.long) :
    (g.without names).options.find? p = g.options.find? p ∨
      (g.without names).options.find? p = none ∧
        ∃ rule ∈ g.options, rule.long ∈ names ∧ p rule = true := by
  rw [without, List.find?_filter]
  cases hfind : g.options.find? p with
  | none =>
    left
    rw [List.find?_eq_none] at hfind ⊢
    exact fun rule hrule hboth => hfind rule hrule (of_decide_eq_true hboth).2
  | some rule =>
    obtain ⟨hp, before, behind, hoptions, hbefore⟩ := List.find?_eq_some_iff_append.1 hfind
    have hmem : rule ∈ g.options := hoptions ▸ List.mem_append_right _ List.mem_cons_self
    -- The first option that fits decides: if it is lacking, so is every other one that fits.
    by_cases hname : rule.long ∈ names
    · refine .inr ⟨?_, rule, hmem, hname, hp⟩
      rw [List.find?_eq_none]
      intro other hother hboth
      obtain ⟨hkept, hpother⟩ := of_decide_eq_true hboth
      exact of_decide_eq_true hkept (h rule hmem other hother hp hpother ▸ hname)
    · left
      rw [List.find?_eq_some_iff_append]
      refine ⟨by simp [hname, hp], before, behind, hoptions, fun other hother => ?_⟩
      have := hbefore other hother
      simp_all

/-- Whether an option is found by its letter, among all or without some. -/
theorem find?_letter (names : List Text) (hletters : g.HasOwnLetters) (letter : Char) :
    (g.without names).options.find? (·.short? = some letter) =
        g.options.find? (·.short? = some letter) ∨
      (g.without names).options.find? (·.short? = some letter) = none ∧
        Misses g names (.misuse (.unknownOption ['-', letter])) := by
  refine (find?_without _ fun rule hrule other hother hp hpother => ?_).imp_right ?_
  · have hrule' := of_decide_eq_true hp
    have hother' := of_decide_eq_true hpother
    exact hletters rule hrule other hother (by simp [hrule']) (hrule'.trans hother'.symm)
  · rintro ⟨hnone, rule, hrule, hname, hp⟩
    have hletter := of_decide_eq_true hp
    exact ⟨hnone, .unknown hrule hname (by simp [OptionRule.spellings, hletter])⟩

theorem find?_long (g : Grammar σ) (names : List Text) (name : Text) :
    (g.without names).options.find? (·.long = name) = g.options.find? (·.long = name) ∨
      (g.without names).options.find? (·.long = name) = none ∧
        Misses g names (.misuse (.unknownOption ('-' :: '-' :: name))) := by
  refine (find?_without _ fun rule hrule other hother hp hpother => ?_).imp_right ?_
  · exact (of_decide_eq_true hp).trans (of_decide_eq_true hpother).symm
  · rintro ⟨hnone, rule, hrule, hname, hp⟩
    have hlong := of_decide_eq_true hp
    exact ⟨hnone, .unknown hrule hname (by simp [OptionRule.spellings, hlong])⟩

theorem agrees_readLetters (hletters : g.HasOwnLetters) (record : σ) (letters : Text) :
    Agrees g names (g.readLetters record letters)
      ((g.without names).readLetters record letters) := by
  induction letters generalizing record with
  | nil => exact .inl rfl
  | cons letter letters ih =>
    rw [readLetters, readLetters]
    rcases find?_letter names hletters letter with heq | ⟨hnone, hmisses⟩
    · rw [heq]
      split
      · exact .inl rfl
      split
      · exact .inl rfl
      · exact Agrees.bind (.inl rfl) ih
    · rw [hnone]
      exact .inr ⟨_, rfl, hmisses⟩

theorem agrees_readLong (record : σ) (s : Text) :
    Agrees g names (g.readLong record s) ((g.without names).readLong record s) := by
  unfold readLong
  split
  rename_i name value? _
  rcases find?_long g names name with heq | ⟨hnone, hmisses⟩
  · rw [heq]
    exact .inl rfl
  · rw [hnone]
    exact .inr ⟨_, rfl, hmisses⟩

theorem agrees_readOption (hletters : g.HasOwnLetters) (record : σ) (arg : Text) :
    Agrees g names (g.readOption record arg) ((g.without names).readOption record arg) := by
  unfold readOption
  split
  · exact agrees_readLong record _
  · exact agrees_readLetters hletters record _
  · exact .inl rfl

/-- The next argument is read alike with some options and without them, unless it is one of them. -/
theorem agrees_step (names : List Text) (hletters : g.HasOwnLetters) (reading : Reading σ)
    (arg : Text) : Agrees g names (g.step reading arg) ((g.without names).step reading arg) := by
  cases reading with
  | ready record =>
    rw [step, step]
    split
    · exact .inl rfl
    split
    · exact agrees_readOption hletters record arg
    · exact .inl rfl
  | awaiting option take => exact .inl rfl
  | operands record => exact .inl rfl
  | named record name args => exact .inl rfl

theorem agrees_readFrom (names : List Text) (hletters : g.HasOwnLetters) (reading : Reading σ)
    (args : List Text) :
    Agrees g names (g.readFrom reading args) ((g.without names).readFrom reading args) := by
  induction args generalizing reading with
  | nil => exact .inl rfl
  | cons arg args ih => exact Agrees.bind (agrees_step names hletters reading arg) ih

theorem agrees_read (names : List Text) (hletters : g.HasOwnLetters) (record : σ)
    (args : List Text) : Agrees g names (g.read record args) ((g.without names).read record args) :=
  Agrees.bind (agrees_readFrom names hletters _ args) fun _ => .inl rfl

/-- A change of the record can be made before arguments are read as well as afterwards. -/
structure Commutes (g : Grammar σ) (change : σ → σ) : Prop where
  rule : ∀ rule ∈ g.options, rule.Commutes change
  operand : ∀ record arg,
    g.takeOperand (change record) arg = (g.takeOperand record arg).map change

theorem map_bind {σ' ρ' : Type} {x : Except Interruption σ} {change : σ → σ'}
    {f : σ → Except Interruption ρ} {f' : σ' → Except Interruption ρ'} {change' : ρ → ρ'}
    (hf : ∀ a, f' (change a) = (f a).map change') :
    (x.map change >>= f') = (x >>= f).map change' := by
  cases x with
  | error interruption => rfl
  | ok a => exact hf a

end Grammar

namespace Reading

variable {change : σ → σ}

/-- The change of the record that is being made. -/
def map (change : σ → σ) : Reading σ → Reading σ
  | ready record => ready (change record)
  | awaiting option take => awaiting option fun s => (take s).map change
  | operands record => operands (change record)
  | named record name args => named (change record) name args

theorem awaiting_change {rule : OptionRule σ} (h : rule.Commutes change) (record : σ) :
    awaiting rule.long (rule.applyValue (change record)) =
      (awaiting rule.long (rule.applyValue record)).map change :=
  congrArg (awaiting rule.long) (funext (h.applyValue record))

/-- The change of the first part of what is read. -/
def mapRecord (change : σ → σ) : σ × ρ → σ × ρ := Prod.map change id

theorem finish_map (reading : Reading σ) :
    (reading.map change).finish = reading.finish.map (mapRecord change) := by
  cases reading <;> rfl

end Reading

namespace Grammar

variable {g : Grammar σ} {names : List Text} {record : σ} {args : List Text}

section Commuting

variable {change : σ → σ}

theorem Commutes.readLetters (h : g.Commutes change) (record : σ) (letters : Text) :
    g.readLetters (change record) letters =
      (g.readLetters record letters).map (Reading.map change) := by
  induction letters generalizing record with
  | nil => rfl
  | cons letter letters ih =>
    rw [Grammar.readLetters, Grammar.readLetters]
    cases hfind : g.options.find? (·.short? = some letter) with
    | none => rfl
    | some rule =>
      have hrule := h.rule rule (List.mem_of_find?_eq_some hfind)
      dsimp only
      split
      · split
        · rw [Reading.awaiting_change hrule]
          rfl
        · rw [hrule.applyValue]
          exact map_bind fun _ => rfl
        · rw [hrule.applyValue]
          exact map_bind fun _ => rfl
      · rw [hrule.apply]
        exact map_bind ih

theorem Commutes.readLong (h : g.Commutes change) (record : σ) (s : Text) :
    g.readLong (change record) s = (g.readLong record s).map (Reading.map change) := by
  unfold Grammar.readLong
  split
  rename_i name value? _
  cases hfind : g.options.find? (·.long = name) with
  | none => rfl
  | some rule =>
    have hrule := h.rule rule (List.mem_of_find?_eq_some hfind)
    cases value? with
    | some value =>
      simp only [hrule.applyValue]
      exact map_bind fun _ => rfl
    | none =>
      dsimp only
      split
      · rw [Reading.awaiting_change hrule]
        rfl
      · rw [hrule.apply]
        exact map_bind fun _ => rfl

theorem Commutes.readOption (h : g.Commutes change) (record : σ) (arg : Text) :
    g.readOption (change record) arg = (g.readOption record arg).map (Reading.map change) := by
  unfold Grammar.readOption
  split
  · exact h.readLong record _
  · exact h.readLetters record _
  · rfl

theorem Commutes.step (h : g.Commutes change) (reading : Reading σ) (arg : Text) :
    g.step (reading.map change) arg = (g.step reading arg).map (Reading.map change) := by
  cases reading with
  | ready record =>
    rw [Reading.map, Grammar.step, Grammar.step]
    split
    · rfl
    split
    · exact h.readOption record arg
    split
    · rw [h.operand]
      exact map_bind fun _ => rfl
    · rfl
  | awaiting option take =>
    rw [Reading.map, Grammar.step, Grammar.step]
    split
    · exact map_bind fun _ => rfl
    · rfl
  | operands record =>
    rw [Reading.map, Grammar.step, Grammar.step, h.operand]
    exact map_bind fun _ => rfl
  | named record name args => rfl

theorem Commutes.readFrom (h : g.Commutes change) (reading : Reading σ) (args : List Text) :
    g.readFrom (reading.map change) args =
      (g.readFrom reading args).map (Reading.map change) := by
  induction args generalizing reading with
  | nil => rfl
  | cons arg args ih =>
    rw [Grammar.readFrom, Grammar.readFrom, List.foldlM_cons, List.foldlM_cons, h.step]
    exact map_bind ih

theorem Commutes.read (h : g.Commutes change) (record : σ) (args : List Text) :
    g.read (change record) args = (g.read record args).map (Reading.mapRecord change) := by
  have hread := h.readFrom (.ready record) args
  rw [Grammar.read, ← Reading.map, hread]
  exact map_bind Reading.finish_map

/-- What an argument list does without can be set before it is read. -/
theorem read_change (hletters : g.HasOwnLetters) (h : (g.without names).Commutes change)
    (hwithout : g.DoesWithout names record args) :
    g.read (change record) args = (g.read record args).map (Reading.mapRecord change) := by
  have hread := h.read record args
  have hplain : g.read record args = (g.without names).read record args := by
    rcases agrees_read names hletters record args with heq | ⟨i, hi, hmisses⟩
    · exact heq
    · exact absurd hmisses (hwithout i hi)
  -- Changed or not, the record meets the same errors without the options, so none is missed.
  rcases agrees_read names hletters (change record) args with heq | ⟨i, hi, hmisses⟩
  · rw [hplain, ← hread]
    exact heq
  · have herror : (g.without names).read record args = .error i := by
      rw [hi] at hread
      cases hlacking : (g.without names).read record args with
      | error i' =>
        rw [hlacking] at hread
        exact hread.symm
      | ok read =>
        rw [hlacking] at hread
        cases hread
    exact absurd hmisses (hwithout i herror)

end Commuting

theorem readFrom_append (reading : Reading σ) (args others : List Text) :
    g.readFrom reading (args ++ others) = g.readFrom reading args >>= (g.readFrom · others) :=
  List.foldlM_append

theorem read_append (record : σ) (args others : List Text) :
    g.read record (args ++ others) =
      g.readFrom (.ready record) args >>= fun reading =>
        g.readFrom reading others >>= Reading.finish := by
  rw [read, readFrom_append, bind_assoc]

theorem read_append_of_ready {next : σ} {front : List Text}
    (h : g.readFrom (.ready record) front = .ok (.ready next)) (back : List Text) :
    g.read record (front ++ back) = g.read next back := by
  rw [read_append, h]
  rfl

/-- What is read behind the name of a command is kept for the command. -/
theorem readFrom_named (record : σ) (name : Text) (args others : List Text) :
    g.readFrom (.named record name args) others = .ok (.named record name (args ++ others)) := by
  induction others generalizing args with
  | nil =>
    rw [List.append_nil]
    rfl
  | cons other others ih =>
    rw [← List.singleton_append, ← List.append_assoc, ← ih]
    rfl

/-- Behind some arguments an option may come, if there is no error in them: none waits for its value
there, and neither the name of a command nor two hyphens alone went before. -/
def ReadyAfter (g : Grammar σ) (record : σ) (args : List Text) : Prop :=
  ∀ reading, g.readFrom (.ready record) args = .ok reading → ∃ next, reading = .ready next

section Adding

variable {plain change : σ → σ} {front extra back : List Text}

/-- The beginning of arguments that do without some options does without them too. -/
theorem DoesWithout.readFrom_eq (hletters : g.HasOwnLetters)
    (h : g.DoesWithout names record (front ++ back)) :
    g.readFrom (.ready record) front = (g.without names).readFrom (.ready record) front := by
  rcases agrees_readFrom names hletters (.ready record) front with heq | ⟨i, hi, hmisses⟩
  · exact heq
  · refine absurd hmisses (h i ?_)
    rw [read_append, hi]
    rfl

/-- Options that arguments do without can be added wherever an option may come. `extra` makes the
change to a record that has none of them yet. -/
theorem read_extra (hletters : g.HasOwnLetters) (hplain : (g.without names).Commutes plain)
    (hchange : (g.without names).Commutes change) (hrecord : plain record = record)
    (hextra : ∀ next, g.readFrom (.ready (plain next)) extra = .ok (.ready (change next)))
    (hready : g.ReadyAfter record front) (hwithout : g.DoesWithout names record (front ++ back)) :
    g.read record (front ++ (extra ++ back)) =
      (g.read record (front ++ back)).map (Reading.mapRecord change) := by
  have hfront := hwithout.readFrom_eq hletters
  cases hlacking : (g.without names).readFrom (.ready record) front with
  | error interruption =>
    rw [read_append, read_append, hfront, hlacking]
    rfl
  | ok reading =>
    obtain ⟨next, rfl⟩ := hready reading (hfront.trans hlacking)
    have hnext : plain next = next := by
      have hmapped := hplain.readFrom (.ready record) front
      rw [Reading.map, hrecord, hlacking] at hmapped
      exact (Reading.ready.inj (Except.ok.inj hmapped)).symm
    have hback : g.DoesWithout names next back := fun interruption herror =>
      hwithout interruption ((read_append_of_ready hlacking back).trans herror)
    have hadded : g.readFrom (.ready next) extra = .ok (.ready (change next)) := by
      have := hextra next
      rwa [hnext] at this
    rw [read_append_of_ready (hfront.trans hlacking), read_append_of_ready (hfront.trans hlacking),
      read_append_of_ready hadded, read_change hletters hchange hback]

end Adding

end Grammar
end Logmark
