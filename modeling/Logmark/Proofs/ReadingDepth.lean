import Logmark.Proofs.Results
import Logmark.Symbol.Reading
import Mathlib.Data.List.Forall2

/-!
Reading under a limit of levels. What is read where few levels are left is read in the same way
where more are left, and what is read at all fits into the levels that were left: a symbol takes two
for every symbol of its longest chain, and one more.
-/
namespace Logmark

namespace Json

variable {α σ : Type} {turns : Nat} {first : Bool}

/-- What one reader reads the other one reads in the same way. -/
def ReadsMore (read read' : Reader α) : Prop := ∀ s a rest, read s = .ok (a, rest) →
  read' s = .ok (a, rest)

theorem ReadsMore.refl (read : Reader α) : ReadsMore read read := fun _ _ _ h => h

/-! ### Arrays -/

theorem readItems_mono {item item' : Reader α} (h : ReadsMore item item') (turns : Nat)
    (first : Bool) : ReadsMore (readItems item turns first) (readItems item' turns first) := by
  induction turns generalizing first with
  | zero =>
    intro s as rest hread
    cases hread
  | succ turns ih =>
    intro s as rest hread
    obtain ⟨next, hnext, hread⟩ := bind_eq_ok hread
    rw [readItems, hnext]
    cases next with
    | done => exact hread
    | more s =>
      obtain ⟨⟨a, s⟩, hitem, hread⟩ := bind_eq_ok hread
      obtain ⟨⟨as, s⟩, hrest, hread⟩ := bind_eq_ok hread
      simp only [bind, Except.bind, h _ _ _ hitem, ih _ _ _ _ hrest]
      exact hread

theorem readArray_none_never (s : Text) (a : List α × Text) : readArray turns none s ≠ .ok a := by
  rw [readArray]
  split <;> exact nofun

theorem readArray_mono {item item' : Reader α} (h : ReadsMore item item') (turns : Nat) :
    ReadsMore (readArray turns (some item)) (readArray turns (some item')) := by
  intro s as rest hread
  rw [readArray] at hread ⊢
  split at hread
  · exact readItems_mono h turns true _ _ _ hread
  · cases hread

/-! ### Records -/

/-- A member with another reader of its value, which reads more. -/
structure Member.ReadsMore (member member' : Member σ) : Prop where
  name : member.name = member'.name
  isRead : member.isRead = member'.isRead
  read : ∀ record, Json.ReadsMore (member.read record) (member'.read record)

theorem Member.readsMore_of {β : Type} {read read' : Reader β} (h : Json.ReadsMore read read')
    (name : Text) (get? : σ → Option β) (set : σ → β → σ) :
    (Member.of name read get? set).ReadsMore (.of name read' get? set) where
  name := rfl
  isRead := rfl
  read record s a rest hread := by
    obtain ⟨⟨b, s⟩, hb, hread⟩ := bind_eq_ok hread
    simp only [Member.of, h _ _ _ hb, bind, Except.bind]
    exact hread

variable {members members' : List (Member σ)}

theorem find?_forall₂ (h : List.Forall₂ Member.ReadsMore members members') (name : Text) :
    members.find? (·.name = name) = none ∧ members'.find? (·.name = name) = none ∨
      ∃ member member', members.find? (·.name = name) = some member ∧
        members'.find? (·.name = name) = some member' ∧ member.ReadsMore member' := by
  induction h with
  | nil => exact .inl ⟨rfl, rfl⟩
  | @cons member member' _ _ hmember _ ih =>
    by_cases hname : member.name = name
    · refine .inr ⟨member, member', ?_, ?_, hmember⟩
      · simp [hname]
      · simp [← hmember.name, hname]
    · simpa [List.find?_cons, hname, ← hmember.name] using ih

theorem readElements_mono (h : List.Forall₂ Member.ReadsMore members members') (first : Bool)
    (record : σ) : ReadsMore (readElements members first record)
      (readElements members' first record) := by
  induction h generalizing first record with
  | nil => exact .refl _
  | @cons member member' _ _ hmember _ ih =>
    intro s a rest hread
    obtain ⟨next, hnext, hread⟩ := bind_eq_ok hread
    rw [readElements, hnext]
    cases next with
    | done => exact hread
    | more s =>
      obtain ⟨⟨record, s⟩, hrecord, hread⟩ := bind_eq_ok hread
      simp only [bind, Except.bind, hmember.read _ _ _ _ hrecord]
      exact ih false record _ _ _ hread

theorem readMembers_mono (h : List.Forall₂ Member.ReadsMore members members') (turns : Nat)
    (first : Bool) (record : σ) : ReadsMore (readMembers members turns first record)
      (readMembers members' turns first record) := by
  induction turns generalizing first record with
  | zero =>
    intro s a rest hread
    cases hread
  | succ turns ih =>
    intro s a rest hread
    obtain ⟨next, hnext, hread⟩ := bind_eq_ok hread
    rw [readMembers, hnext]
    cases next with
    | done => exact hread
    | more next =>
      obtain ⟨key, s⟩ := next
      rcases find?_forall₂ h key with ⟨hnone, hnone'⟩ | ⟨member, member', hsome, hsome', hmember⟩
      · simp only [hnone] at hread
        obtain ⟨s, hcolon, hread⟩ := bind_eq_ok hread
        obtain ⟨s, hskip, hread⟩ := bind_eq_ok hread
        simp only [bind, Except.bind, hnone', hcolon, hskip]
        exact ih _ _ _ _ _ hread
      · have hisRead := congrFun hmember.isRead record
        simp only [hsome] at hread
        cases hnew : member.isRead record with
        | true =>
          rw [hnew] at hread
          cases hread
        | false =>
          rw [hnew] at hread
          obtain ⟨s, hcolon, hread⟩ := bind_eq_ok hread
          obtain ⟨⟨record, s⟩, hrecord, hread⟩ := bind_eq_ok hread
          simp only [bind, Except.bind, hsome', ← hisRead, hnew, hcolon,
            hmember.read _ _ _ _ hrecord]
          exact ih _ _ _ _ _ hread

variable {empty : σ} {finish : σ → Option α}

/-- A record that has been read is made into a value. -/
theorem finish_eq_ok_iff {x : Except Fault (σ × Text)} {rest : Text} {a : α} :
    (x >>= fun (record, s) => match finish record with
      | some a => return (a, s)
      | none => throw .mistyped) = .ok (a, rest) ↔
      ∃ record, finish record = some a ∧ x = .ok (record, rest) := by
  cases x with
  | error fault => exact ⟨nofun, fun ⟨_, _, h⟩ => nomatch h⟩
  | ok read =>
    obtain ⟨record, s⟩ := read
    simp only [bind, Except.bind]
    cases hfinish : finish record with
    | none =>
      refine ⟨nofun, fun ⟨_, h, hread⟩ => ?_⟩
      cases hread
      rw [hfinish] at h
      cases h
    | some b =>
      constructor
      · rintro ⟨⟩
        exact ⟨record, hfinish, rfl⟩
      · rintro ⟨_, h, ⟨⟩⟩
        rw [hfinish] at h
        cases h
        rfl

/-- What a record is read from: an array or object that is opened where a level is left for it, and
whose members make a record that lacks nothing. -/
theorem readRecord_eq_ok_iff {members? : Option (List (Member σ))} {s rest : Text} {a : α} :
    readRecord turns members? empty finish s = .ok (a, rest) ↔
      ∃ members record t, members? = some members ∧ finish record = some a ∧
        (skipSpace s = '[' :: t ∧ readElements members true empty t = .ok (record, rest) ∨
          skipSpace s = '\x7b' :: t ∧
            readMembers members turns true empty t = .ok (record, rest)) := by
  unfold readRecord
  split
  · rename_i t members hs
    refine finish_eq_ok_iff.trans ?_
    simp [hs]
  · rename_i t members hs
    refine finish_eq_ok_iff.trans ?_
    simp [hs]
  · exact ⟨nofun, nofun⟩
  · exact ⟨nofun, nofun⟩
  · rename_i harray hobject _ _
    refine ⟨nofun, ?_⟩
    rintro ⟨members, record, t, rfl, -, ⟨hs, -⟩ | ⟨hs, -⟩⟩
    · exact absurd rfl (harray t members hs)
    · exact absurd rfl (hobject t members hs)

theorem readRecord_mono (h : List.Forall₂ Member.ReadsMore members members') :
    ReadsMore (readRecord turns (some members) empty finish)
      (readRecord turns (some members') empty finish) := by
  intro s a rest hread
  obtain ⟨_, record, t, ⟨⟩, hfinish, hrecord⟩ := readRecord_eq_ok_iff.1 hread
  refine readRecord_eq_ok_iff.2 ⟨members', record, t, rfl, hfinish, ?_⟩
  rcases hrecord with ⟨hs, hrecord⟩ | ⟨hs, hrecord⟩
  · exact .inl ⟨hs, readElements_mono h true empty _ _ _ hrecord⟩
  · exact .inr ⟨hs, readMembers_mono h turns true empty _ _ _ hrecord⟩

/-! ### What a reader gives -/

variable {P : σ → Prop} {Q : α → Prop}

theorem readItems_gives {item : Reader α} (hitem : ∀ s, Gives (item s) fun read => Q read.1)
    (turns : Nat) (first : Bool) (s : Text) :
    Gives (readItems item turns first s) fun read => ∀ a ∈ read.1, Q a := by
  induction turns generalizing first s with
  | zero => exact .error _
  | succ turns ih =>
    refine Gives.of_bind fun next => ?_
    cases next with
    | done => exact .ok nofun
    | more s =>
      refine (hitem s).bind fun read hread => (ih false read.2).bind fun more hmore => ?_
      exact .ok (List.forall_mem_cons.2 ⟨hread, hmore⟩)

theorem readArray_gives {item : Reader α} (hitem : ∀ s, Gives (item s) fun read => Q read.1)
    (s : Text) : Gives (readArray turns (some item) s) fun read => ∀ a ∈ read.1, Q a := by
  rw [readArray]
  split
  · exact readItems_gives hitem turns true _
  · exact .error _

/-- A property of a record that the reading of a member keeps. -/
def KeptBy (members : List (Member σ)) (P : σ → Prop) : Prop :=
  ∀ member ∈ members, ∀ record s, P record → Gives (member.read record s) fun read => P read.1

theorem Member.of_gives {β : Type} {name : Text} {value : Reader β} {get? : σ → Option β}
    {set : σ → β → σ} {R : β → Prop} {record : σ} {s : Text}
    (hvalue : Gives (value s) fun read => R read.1) (hset : ∀ b, R b → P (set record b)) :
    Gives ((Member.of name value get? set).read record s) fun read => P read.1 :=
  hvalue.bind fun read hread => .ok (hset read.1 hread)

theorem readElements_gives (h : KeptBy members P) {record : σ} (hrecord : P record) (first : Bool)
    (s : Text) : Gives (readElements members first record s) fun read => P read.1 := by
  induction members generalizing first record s with
  | nil =>
    rw [readElements]
    split
    · exact .error _
    · exact .ok hrecord
    · exact .error _
  | cons member members ih =>
    obtain ⟨hmember, hmembers⟩ := List.forall_mem_cons.1 h
    refine Gives.of_bind fun next => ?_
    cases next with
    | done => exact .ok hrecord
    | more s =>
      exact (hmember record s hrecord).bind fun read hread => ih hmembers hread false read.2

theorem readMembers_gives (h : KeptBy members P) {record : σ} (hrecord : P record) (turns : Nat)
    (first : Bool) (s : Text) :
    Gives (readMembers members turns first record s) fun read => P read.1 := by
  induction turns generalizing first record s with
  | zero => exact .error _
  | succ turns ih =>
    refine Gives.of_bind fun next => ?_
    cases next with
    | done => exact .ok hrecord
    | more next =>
      obtain ⟨key, s⟩ := next
      cases hfind : members.find? (·.name = key) with
      | none =>
        simp only [hfind]
        exact Gives.of_bind fun s => Gives.of_bind fun s => ih hrecord false s
      | some member =>
        have hmember := h member (List.mem_of_find?_eq_some hfind)
        simp only [hfind]
        split
        · exact .error _
        · refine Gives.of_bind fun s => ?_
          exact (hmember record s hrecord).bind fun read hread => ih hread false read.2

/-- A value that a record is made into has what a record with a property that is kept gives it. -/
theorem readRecord_gives (h : KeptBy members P) (hempty : P empty)
    (hfinish : ∀ record a, P record → finish record = some a → Q a) (s : Text) :
    Gives (readRecord turns (some members) empty finish s) fun read => Q read.1 := by
  rintro ⟨a, rest⟩ hread
  obtain ⟨_, record, t, ⟨⟩, hfinished, hrecord⟩ := readRecord_eq_ok_iff.1 hread
  refine hfinish record a ?_ hfinished
  rcases hrecord with ⟨-, hrecord⟩ | ⟨-, hrecord⟩
  · exact readElements_gives h hempty true t _ hrecord
  · exact readMembers_gives h hempty turns true t _ hrecord

end Json

mutual

/-- The number of symbols in the longest chain from a symbol down. -/
def Symbol.height : Symbol → Nat
  | ⟨_, _, children⟩ => Outline.height children + 1

/-- The number of symbols in the longest chain of parents and children. -/
def Outline.height : Outline → Nat
  | [] => 0
  | s :: rest => max s.height (Outline.height rest)

end

theorem Outline.height_le_iff {outline : Outline} {n : Nat} :
    outline.height ≤ n ↔ ∀ s ∈ outline, s.height ≤ n := by
  induction outline with
  | nil => exact ⟨fun _ => nofun, fun _ => Nat.zero_le n⟩
  | cons s outline ih =>
    rw [height, Nat.max_le, ih, List.forall_mem_cons]

open Json (KeptBy Member Reader ReadsMore readRecord_eq_ok_iff)

variable {turns depth depth' : Nat}

/-- A reader that may open a level has one left. -/
theorem Json.readRecord_ite_gives {α σ : Type} {members : List (Member σ)} {empty : σ}
    {finish : σ → Option α} (s : Text) :
    Gives (Json.readRecord turns (if depth = 0 then none else some members) empty finish s)
      fun _ => 1 ≤ depth := by
  rintro ⟨a, rest⟩ hread
  obtain ⟨_, _, _, hmembers, -⟩ := readRecord_eq_ok_iff.1 hread
  split at hmembers
  · cases hmembers
  · rename_i hne
    exact Nat.pos_of_ne_zero hne

namespace Position

theorem readJson_gives (s : Text) : Gives (readJson turns depth s) fun _ => 1 ≤ depth := by
  rw [readJson]
  exact Json.readRecord_ite_gives s

theorem readJson_mono (h : depth ≤ depth') :
    ReadsMore (readJson turns depth) (readJson turns depth') := by
  intro s p rest hread
  have hpos := readJson_gives s _ hread
  rw [readJson, if_neg (by omega)] at hread ⊢
  exact hread

end Position

namespace Range

/-- A start that has been read took two levels, one for the range and one of its own. -/
def StartFits (depth : Nat) (record : Option Position × Option Position) : Prop :=
  record.1.isSome → 2 ≤ depth

theorem startFits_empty : StartFits depth (none, none) := by
  rintro ⟨⟩

theorem readJson_gives (s : Text) : Gives (readJson turns depth s) fun _ => 2 ≤ depth := by
  intro read hread
  have hpos : 1 ≤ depth := by
    rw [readJson] at hread
    exact Json.readRecord_ite_gives s read hread
  have hposition : ∀ s, Gives (Position.readJson turns (depth - 1) s) fun _ => 2 ≤ depth :=
    fun s => (Position.readJson_gives s).mono fun _ h => by omega
  rw [readJson, if_neg (by omega)] at hread
  refine Json.readRecord_gives (P := StartFits depth) (Q := fun _ => 2 ≤ depth) ?_
    startFits_empty ?_ s read hread
  · simp only [KeptBy, List.forall_mem_cons]
    refine ⟨fun record s _ => ?_, fun record s h => ?_, nofun⟩
    · exact Member.of_gives (P := StartFits depth) (R := fun _ => 2 ≤ depth) (hposition s)
        fun _ h _ => h
    · exact Member.of_gives (P := StartFits depth) (R := fun _ => 2 ≤ depth) (hposition s)
        fun _ _ => h
  · intro record r h hfinish
    obtain ⟨p, hp, -⟩ := Option.bind_eq_some_iff.1 hfinish
    exact h (by rw [hp]; rfl)

theorem readJson_mono (h : depth ≤ depth') :
    ReadsMore (readJson turns depth) (readJson turns depth') := by
  intro s r rest hread
  have hpos := readJson_gives s _ hread
  have hposition : ReadsMore (Position.readJson turns (depth - 1))
      (Position.readJson turns (depth' - 1)) := Position.readJson_mono (by omega)
  rw [readJson, if_neg (by omega)] at hread ⊢
  refine Json.readRecord_mono ?_ _ _ _ hread
  exact .cons (Member.readsMore_of hposition _ _ _)
    (.cons (Member.readsMore_of hposition _ _ _) .nil)

end Range

/-- What has been read of a symbol took levels for the range and for the chains of the children. -/
structure SymbolRecord.Fits (depth : Nat) (record : SymbolRecord) : Prop where
  range : record.range?.isSome → 3 ≤ depth
  children : ∀ cs, record.children? = some cs → ∀ c ∈ cs, 2 * c.height + 3 ≤ depth

theorem SymbolRecord.fits_empty : SymbolRecord.empty.Fits depth := by
  constructor
  · rintro ⟨⟩
  · rintro _ ⟨⟩

/-- A symbol takes no more levels than its parts. -/
theorem SymbolRecord.Fits.finish {record : SymbolRecord} {s : Symbol} (h : record.Fits depth)
    (hfinish : record.finish = some s) : 2 * s.height + 1 ≤ depth := by
  obtain ⟨name, -, hfinish⟩ := Option.bind_eq_some_iff.1 hfinish
  obtain ⟨range, hrange, hfinish⟩ := Option.bind_eq_some_iff.1 hfinish
  cases hfinish
  have hlevels : 3 ≤ depth := h.range (by rw [hrange]; rfl)
  have hchildren : Outline.height (record.children?.getD []) ≤ (depth - 3) / 2 := by
    rw [Outline.height_le_iff]
    intro c hc
    cases hcs : record.children? with
    | none =>
      rw [hcs] at hc
      contradiction
    | some cs =>
      rw [hcs] at hc
      have := h.children cs hcs c hc
      omega
  rw [Symbol.height]
  omega

namespace Symbol

/-- Whatever is read has chains of symbols that fit into the levels. -/
theorem readJson_gives (turns depth : Nat) :
    (∀ s, Gives (readJson turns depth s) fun read => 2 * read.1.height + 1 ≤ depth) ∧
      ∀ s, Gives (readJsonList turns depth s) fun read =>
        ∀ a ∈ read.1, 2 * a.height + 2 ≤ depth := by
  induction depth with
  | zero =>
    refine ⟨fun s read hread => ?_, fun s read hread => ?_⟩
    · rw [readJson] at hread
      obtain ⟨_, _, _, ⟨⟩, -⟩ := readRecord_eq_ok_iff.1 hread
    · rw [readJsonList] at hread
      exact absurd hread (Json.readArray_none_never s read)
  | succ depth ih =>
    obtain ⟨hsymbol, hlist⟩ := ih
    refine ⟨fun s => ?_, fun s => ?_⟩
    · rw [readJson]
      refine Json.readRecord_gives (P := SymbolRecord.Fits (depth + 1))
        (Q := fun s : Symbol => 2 * s.height + 1 ≤ depth + 1) ?_ SymbolRecord.fits_empty
        (fun _ _ h hfinish => h.finish hfinish) s
      simp only [KeptBy, SymbolRecord.members, List.forall_mem_cons]
      refine ⟨fun record s h => ?_, fun record s h => ?_, fun record s h => ?_, nofun⟩
      · exact Member.of_gives (P := SymbolRecord.Fits (depth + 1)) (R := fun _ => True)
          (fun _ _ => trivial) fun _ _ => ⟨h.range, h.children⟩
      · exact Member.of_gives (P := SymbolRecord.Fits (depth + 1)) (R := fun _ => 2 ≤ depth)
          (Range.readJson_gives s) fun _ hlevels => ⟨fun _ => Nat.succ_le_succ hlevels, h.children⟩
      · refine Member.of_gives (P := SymbolRecord.Fits (depth + 1))
          (R := fun cs : List Symbol => ∀ c ∈ cs, 2 * c.height + 2 ≤ depth) (hlist s)
          fun cs hcs => ⟨h.range, ?_⟩
        rintro _ ⟨⟩ c hc
        exact Nat.succ_le_succ (hcs c hc)
    · rw [readJsonList]
      exact (Json.readArray_gives (Q := fun s : Symbol => 2 * s.height + 1 ≤ depth) hsymbol s).mono
        fun read hread a ha => Nat.succ_le_succ (hread a ha)

theorem readJson_mono (turns : Nat) {depth depth' : Nat} (h : depth ≤ depth') :
    ReadsMore (readJson turns depth) (readJson turns depth') ∧
      ReadsMore (readJsonList turns depth) (readJsonList turns depth') := by
  induction depth generalizing depth' with
  | zero =>
    refine ⟨fun s a rest hread => ?_, fun s a rest hread => ?_⟩
    · rw [readJson] at hread
      obtain ⟨_, _, _, ⟨⟩, -⟩ := readRecord_eq_ok_iff.1 hread
    · rw [readJsonList] at hread
      exact absurd hread (Json.readArray_none_never s _)
  | succ depth ih =>
    obtain ⟨depth', rfl⟩ : ∃ d, depth' = d + 1 := ⟨depth' - 1, by omega⟩
    obtain ⟨hsymbol, hlist⟩ := ih (Nat.le_of_succ_le_succ h)
    constructor
    · rw [readJson, readJson]
      refine Json.readRecord_mono ?_
      exact .cons (Member.readsMore_of (.refl _) _ _ _)
        (.cons (Member.readsMore_of (Range.readJson_mono (Nat.le_of_succ_le_succ h)) _ _ _)
          (.cons (Member.readsMore_of hlist _ _ _) .nil))
    · rw [readJsonList, readJsonList]
      exact Json.readArray_mono hsymbol turns

end Symbol

end Logmark
