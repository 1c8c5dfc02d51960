import Logmark.Proofs.JsonSkipping
import Mathlib.Data.List.Forall2

/-!
Arrays and records are read as they are written. The items of an array are read one after the other;
the members of an object in whatever order they stand, each that the record has once, and others
wherever they come.
-/
namespace Logmark.Json

open Text

variable {α β σ : Type} {s t w v rest item : Text} {items : List Text} {first : Bool} {turns : Nat}

/-- A text is read as a value, with space before it, up to its end. -/
def Reads (read : Reader α) (v : Text) (a : α) : Prop :=
  ∀ w rest, Spaces w → Ends rest → read (w ++ (v ++ rest)) = .ok (a, rest)

/-- A whole text is read if what is left is space. -/
theorem readAll_eq_ok_iff {read : Nat → Reader α} {a : α} :
    readAll read s = .ok a ↔
      ∃ rest, read (s.length + 1) s = .ok (a, rest) ∧ skipSpace rest = [] := by
  cases hread : read (s.length + 1) s with
  | error fault => simp [readAll, hread, bind, Except.bind]
  | ok r =>
    obtain ⟨b, rest⟩ := r
    by_cases hspace : skipSpace rest = [] <;>
      simp [readAll, hread, bind, Except.bind, hspace, pure, Except.pure, throw, throwThe,
        MonadExceptOf.throw]

/-- A text that is a value among space is read as a whole. -/
theorem readAll_of_reads {read : Nat → Reader α} {a : α} {w' : Text} (hw : Spaces w)
    (hw' : Spaces w') (h : ∀ turns, v.length ≤ turns → Reads (read turns) v a) :
    readAll read (w ++ (v ++ w')) = .ok a := by
  have hturns : v.length ≤ (w ++ (v ++ w')).length + 1 := by
    rw [List.length_append, List.length_append]
    omega
  exact readAll_eq_ok_iff.2 ⟨w', h _ hturns w w' hw hw'.ends, hw'.skipSpace_eq_nil⟩

theorem reads_text {text : Text} (h : IsText text v) : Reads readText v text := by
  intro w rest hw _
  obtain ⟨body, hbody, rfl⟩ := h
  have hread := hbody.readString rest
  rw [readText, skipSpace_append hw, List.cons_append, skipSpace_cons (by decide),
    List.append_assoc, List.singleton_append]
  exact hread

theorem reads_count {n : Nat} (h : n ≤ maxCount) : Reads readCount (numeral n) n := by
  intro w rest hw hrest
  obtain ⟨c, digits, hn, hdigit⟩ := exists_numeral_eq_cons n
  have hread := readNumber_numeral h hrest
  rw [readCount, (Number.isWritten_numeral n).starts.skipSpace_append hw]
  rw [hn, List.cons_append] at hread ⊢
  simp only [if_pos (Or.inr hdigit : c = '-' ∨ c.isDigit = true), hread, bind, Except.bind,
    Number.count?_ofCount h]
  rfl

/-! ### Arrays -/

theorem nextItem_closing (hw : Spaces w) (first : Bool) (rest : Text) :
    nextItem first (w ++ ']' :: rest) = .ok (.done rest) := by
  rw [nextItem, skipSpace_append hw, skipSpace_cons (by decide)]
  rfl

theorem nextItem_start (hw : Spaces w) (hitem : Starts item) (s : Text) :
    nextItem true (w ++ (item ++ s)) = .ok (.more (item ++ s)) := by
  have hspace := hitem.skipSpace_append hw s
  obtain ⟨c, tail, rfl, hc⟩ := hitem
  have hne : c ≠ ']' := (ne_of_mem_of_not_mem (by decide) hc).symm
  rw [nextItem, hspace]
  split
  · contradiction
  · rename_i heq
    exact absurd (List.cons.inj heq).1 hne
  · rename_i heq
    rw [if_pos rfl, ← heq]

/-- Behind a comma the next item is looked for as the first one is. -/
theorem nextItem_comma {w' : Text} (hw : Spaces w) (hw' : Spaces w') (hitem : Starts item)
    (s : Text) : nextItem false (w ++ ',' :: (w' ++ (item ++ s))) = .ok (.more (item ++ s)) := by
  have hspace := hitem.skipSpace_append hw' s
  obtain ⟨c, tail, rfl, hc⟩ := hitem
  have hne : c ≠ ']' := (ne_of_mem_of_not_mem (by decide) hc).symm
  rw [nextItem, skipSpace_append hw, skipSpace_cons (by decide)]
  split
  · contradiction
  · rename_i heq
    exact absurd (List.cons.inj heq).1 (by decide)
  · rename_i heq
    obtain ⟨rfl, rfl⟩ := List.cons.inj heq
    rw [if_neg Bool.false_ne_true, if_pos rfl, hspace]
    split
    · contradiction
    · rename_i heq
      exact absurd (List.cons.inj heq).1 hne
    · rfl

/-- A text that is the item of an array and is read as a value. -/
structure ReadsItem (read : Reader α) (v : Text) (a : α) : Prop where
  starts : Starts v
  reads : Reads read v a

/-- A turn that finds an item reads it. -/
theorem readItems_succ {read : Reader α} {a : α} {as : List α}
    (hnext : nextItem first s = .ok (.more (item ++ t))) (hitem : ReadsItem read item a)
    (ht : Ends t) (hmore : readItems read turns false t = .ok (as, rest)) :
    readItems read (turns + 1) first s = .ok (a :: as, rest) := by
  have hread := hitem.reads [] t .nil ht
  rw [List.nil_append] at hread
  rw [readItems, hnext]
  simp only [bind, Except.bind, hread, hmore]
  rfl

theorem readItems_of_listed {read : Reader α} {as : List α} (h : Listed .array first items t)
    (hitems : List.Forall₂ (ReadsItem read) items as) (hturns : t.length < turns) (rest : Text) :
    readItems read turns first (t ++ rest) = .ok (as, rest) := by
  induction h generalizing as turns with
  | @done first w hw =>
    cases hitems
    obtain ⟨turns, rfl⟩ := Nat.exists_eq_succ_of_ne_zero (Nat.ne_of_gt (Nat.zero_lt_of_lt hturns))
    rw [readItems, List.append_assoc, Frame.closing, List.singleton_append,
      nextItem_closing hw first rest]
    rfl
  | @start w item tail items hw htail ih =>
    obtain _ | ⟨hitem, hitems⟩ := hitems
    obtain ⟨turns, rfl⟩ := Nat.exists_eq_succ_of_ne_zero (Nat.ne_of_gt (Nat.zero_lt_of_lt hturns))
    have hnext := nextItem_start hw hitem.starts (tail ++ rest)
    rw [List.append_assoc, List.append_assoc]
    refine readItems_succ hnext hitem (htail.ends rfl rest) (ih hitems ?_)
    have hlength := hitem.starts.length_pos
    simp only [List.length_append] at hturns
    omega
  | @next w w' item tail items hw hw' htail ih =>
    obtain _ | ⟨hitem, hitems⟩ := hitems
    obtain ⟨turns, rfl⟩ := Nat.exists_eq_succ_of_ne_zero (Nat.ne_of_gt (Nat.zero_lt_of_lt hturns))
    have hnext := nextItem_comma hw hw' hitem.starts (tail ++ rest)
    rw [List.append_assoc, List.cons_append, List.append_assoc, List.append_assoc]
    refine readItems_succ hnext hitem (htail.ends rfl rest) (ih hitems ?_)
    simp only [List.length_append, List.length_cons] at hturns
    omega

/-- An array is read if its items are. -/
theorem reads_array {read : Reader α} {as : List α} (h : Enclosed .array items v)
    (hitems : List.Forall₂ (ReadsItem read) items as) (hturns : v.length ≤ turns) :
    Reads (readArray turns (some read)) v as := by
  intro w rest hw _
  obtain ⟨hlisted⟩ := h
  rw [readArray, List.cons_append, skipSpace_opening hw]
  exact readItems_of_listed hlisted hitems hturns rest

/-! ### Objects -/

theorem nextKey_closing (hw : Spaces w) (first : Bool) (rest : Text) :
    nextKey first (w ++ '\x7d' :: rest) = .ok (.done rest) := by
  rw [nextKey, skipSpace_append hw, skipSpace_cons (by decide)]
  rfl

theorem WrittenMember.length_value_lt (m : WrittenMember) : m.value.length < m.text.length := by
  obtain ⟨body, w₁, w₂, -, -, -, hkey⟩ := m.isKey
  rw [text, hkey, List.length_append, List.length_cons]
  omega

/-- The name of a member is read up to the colon, behind which its value is. -/
theorem readName_member (hw : Spaces w) (m : WrittenMember) (s : Text) :
    ∃ t behind w', skipSpace (w ++ (m.text ++ s)) = '"' :: t ∧
      readString t = .ok (m.name, behind) ∧ Spaces w' ∧
      skipColon behind = .ok (w' ++ (m.value ++ s)) := by
  obtain ⟨body, w₁, w₂, hbody, hw₁, hw₂, hkey⟩ := m.isKey
  have htext : m.text ++ s = '"' :: (body ++ '"' :: (w₁ ++ ':' :: (w₂ ++ (m.value ++ s)))) := by
    rw [WrittenMember.text, hkey]
    simp
  refine ⟨_, _, w₂, ?_, hbody.readString (w₁ ++ ':' :: (w₂ ++ (m.value ++ s))), hw₂, ?_⟩
  · rw [skipSpace_append hw, htext, skipSpace_cons (by decide)]
  · rw [skipColon, skipSpace_append hw₁, skipSpace_cons (by decide)]
    rfl

theorem nextKey_start {name behind : Text} (hs : skipSpace s = '"' :: t)
    (hname : readString t = .ok (name, behind)) :
    nextKey true s = .ok (.more (name, behind)) := by
  rw [nextKey, hs]
  change readString t >>= _ = _
  rw [hname]
  rfl

/-- Behind a comma the next key is looked for as the first one is. -/
theorem nextKey_comma {name behind : Text} (hw : Spaces w) (hs : skipSpace s = '"' :: t)
    (hname : readString t = .ok (name, behind)) :
    nextKey false (w ++ ',' :: s) = .ok (.more (name, behind)) := by
  rw [nextKey, skipSpace_append hw, skipSpace_cons (by decide)]
  split
  · contradiction
  · rename_i heq
    exact absurd (List.cons.inj heq).1 (by decide)
  · rename_i heq
    obtain ⟨rfl, rfl⟩ := List.cons.inj heq
    rw [if_pos (Or.inr rfl), if_neg Bool.false_ne_true, hs]
    change readString t >>= _ = _
    rw [hname]
    rfl

/-- The members of an object take one record to another: each is one that the record keeps and has
not got yet, or one that it does not keep. -/
inductive Fills (members : List (Member σ)) : σ → List WrittenMember → σ → Prop
  | nil (record : σ) : Fills members record [] record
  | known {record next last : σ} {m : WrittenMember} {ms : List WrittenMember}
      {member : Member σ} :
    members.find? (·.name = m.name) = some member → member.isRead record = false →
    Reads (member.read record) m.value next → Fills members next ms last →
    Fills members record (m :: ms) last
  | other {record last : σ} {m : WrittenMember} {ms : List WrittenMember} :
    members.find? (·.name = m.name) = none → IsValue m.value → Fills members record ms last →
    Fills members record (m :: ms) last

theorem reads_member {name : Text} {value : Reader α} {get? : σ → Option α} {set : σ → α → σ}
    {a : α} (h : Reads value v a) (record : σ) :
    Reads ((Member.of name value get? set).read record) v (set record a) := by
  intro w rest hw hrest
  simp only [Member.of, h w rest hw hrest, bind, Except.bind]
  rfl

/-- A member whose value the record has not got yet comes next. -/
theorem Fills.of {members : List (Member σ)} {record last : σ} {m : WrittenMember}
    {ms : List WrittenMember} {name : Text} {value : Reader α} {get? : σ → Option α}
    {set : σ → α → σ} {a : α}
    (hmember : members.find? (·.name = m.name) = some (.of name value get? set))
    (hnone : get? record = none) (hread : Reads value m.value a)
    (hrest : Fills members (set record a) ms last) : Fills members record (m :: ms) last :=
  .known hmember (by simp [Member.of, hnone]) (reads_member hread record) hrest

/-- A turn that finds a member reads its value into the record or skips it. -/
theorem readMembers_succ {members : List (Member σ)} {record last : σ} {m : WrittenMember}
    {ms : List WrittenMember} {behind : Text} (hw : Spaces w)
    (hkey : nextKey first s = .ok (.more (m.name, behind)))
    (hcolon : skipColon behind = .ok (w ++ (m.value ++ t))) (ht : Ends t)
    (hfills : Fills members record (m :: ms) last) (hturns : m.value.length ≤ turns) :
    ∃ next, Fills members next ms last ∧
      readMembers members (turns + 1) first record s = readMembers members turns false next t := by
  cases hfills with
  | @known _ next _ _ _ member hmember hnew hread hrest =>
    refine ⟨next, hrest, ?_⟩
    rw [readMembers, hkey]
    simp only [bind, Except.bind, hmember, hnew, hcolon, hread w t hw ht]
    rfl
  | other hnone hvalue hrest =>
    refine ⟨record, hrest, ?_⟩
    rw [readMembers, hkey]
    simp only [bind, Except.bind, hnone, hcolon, hvalue.skipValue hw ht hturns]

/-- An item is no longer than the text that it is in. -/
theorem Listed.length_le {frame : Frame} (h : Listed frame first items t) (hitem : item ∈ items) :
    item.length ≤ t.length := by
  induction h with
  | done => contradiction
  | start _ _ ih =>
    rw [List.length_append, List.length_append]
    rcases List.mem_cons.1 hitem with rfl | hmem
    · omega
    · have := ih hmem
      omega
  | next _ _ _ ih =>
    rw [List.length_append, List.length_cons, List.length_append, List.length_append]
    rcases List.mem_cons.1 hitem with rfl | hmem
    · omega
    · have := ih hmem
      omega

theorem Enclosed.length_le {frame : Frame} (h : Enclosed frame items v) (hitem : item ∈ items) :
    item.length ≤ v.length := by
  obtain ⟨hlisted⟩ := h
  exact Nat.le_trans (hlisted.length_le hitem) (Nat.le_succ _)

/-- The only value with a name is no longer than the object that it is in. -/
theorem IsObject.length_le {name value : Text} {ms : List WrittenMember} (h : IsObject ms v)
    (hvalue : WrittenMember.valuesOf name ms = [value]) : value.length ≤ v.length := by
  have hmem : value ∈ WrittenMember.valuesOf name ms := hvalue ▸ List.mem_cons_self
  obtain ⟨m, hm, rfl⟩ := List.mem_map.1 hmem
  have hitem := Enclosed.length_le h (List.mem_map_of_mem (List.mem_of_mem_filter hm))
  exact Nat.le_trans (Nat.le_of_lt m.length_value_lt) hitem

theorem readMembers_of_listed {members : List (Member σ)} {record last : σ}
    {ms : List WrittenMember} (h : Listed .object first (ms.map (·.text)) t)
    (hfills : Fills members record ms last) (hturns : t.length < turns) (rest : Text) :
    readMembers members turns first record (t ++ rest) = .ok (last, rest) := by
  induction ms generalizing first record t turns with
  | nil =>
    obtain ⟨turns, rfl⟩ := Nat.exists_eq_succ_of_ne_zero (Nat.ne_of_gt (Nat.zero_lt_of_lt hturns))
    obtain @⟨_, w, hw⟩ := h
    cases hfills
    rw [readMembers, List.append_assoc, Frame.closing, List.singleton_append,
      nextKey_closing hw first rest]
    rfl
  | cons m ms ih =>
    obtain ⟨turns, rfl⟩ := Nat.exists_eq_succ_of_ne_zero (Nat.ne_of_gt (Nat.zero_lt_of_lt hturns))
    have hlength := m.length_value_lt
    rw [List.map_cons] at h
    cases h with
    | @start w _ tail _ hw htail =>
      obtain ⟨t, behind, w', hs, hname, hw', hcolon⟩ := readName_member hw m (tail ++ rest)
      simp only [List.length_append] at hturns
      have hvalue : m.value.length ≤ turns := by omega
      obtain ⟨next, hnext, hturn⟩ := readMembers_succ hw' (nextKey_start hs hname) hcolon
        (htail.ends rfl rest) hfills hvalue
      rw [List.append_assoc, List.append_assoc, hturn]
      exact ih htail hnext (by omega)
    | @next w w' _ tail _ hw hw' htail =>
      obtain ⟨t, behind, w'', hs, hname, hw'', hcolon⟩ := readName_member hw' m (tail ++ rest)
      simp only [List.length_append, List.length_cons] at hturns
      have hvalue : m.value.length ≤ turns := by omega
      obtain ⟨next, hnext, hturn⟩ := readMembers_succ hw'' (nextKey_comma hw hs hname) hcolon
        (htail.ends rfl rest) hfills hvalue
      rw [List.append_assoc, List.cons_append, List.append_assoc, List.append_assoc, hturn]
      exact ih htail hnext (by omega)

/-- An object is read as the record that its members make. -/
theorem reads_record {members : List (Member σ)} {empty last : σ} (finish : σ → Option α) {a : α}
    {ms : List WrittenMember} (h : IsObject ms v) (hfills : Fills members empty ms last)
    (hfinish : finish last = some a) (hturns : v.length ≤ turns) :
    Reads (readRecord turns (some members) empty finish) v a := by
  intro w rest hw _
  obtain ⟨hlisted⟩ := h
  have hmembers := readMembers_of_listed hlisted hfills hturns rest
  unfold readRecord
  rw [List.cons_append, skipSpace_opening hw]
  simp only [Frame.opening, hmembers, bind, Except.bind, hfinish]
  rfl

/-! ### Members in any order -/

open WrittenMember (valuesOf)

/-- What becomes of a member of a record while `ms` are read: it keeps what it has, or it has
nothing yet and one of `ms` has its name and is read as its value. -/
inductive Due (name : Text) (read : Reader α) :
    (last? current? : Option α) → List WrittenMember → Prop
  | settled {a? : Option α} {ms : List WrittenMember} : valuesOf name ms = [] →
    Due name read a? a? ms
  | coming {a : α} {v : Text} {ms : List WrittenMember} : valuesOf name ms = [v] →
    Reads read v a → Due name read (some a) none ms

namespace Due

variable {name : Text} {read : Reader α} {last? current? : Option α} {m : WrittenMember}
  {ms : List WrittenMember}

theorem nil (h : Due name read last? current? []) : current? = last? := by
  cases h with
  | settled => rfl
  | coming hvalues => contradiction

/-- The next member is the one that is waited for, or has another name. -/
theorem cons (h : Due name read last? current? (m :: ms)) :
    (m.name = name ∧ current? = none ∧ ∃ a, last? = some a ∧ Reads read m.value a ∧
        Due name read last? (some a) ms) ∨
      (m.name ≠ name ∧ Due name read last? current? ms) := by
  by_cases hname : m.name = name
  · left
    have hvalues : valuesOf name (m :: ms) = m.value :: valuesOf name ms := by
      simp [valuesOf, hname]
    cases h with
    | settled hnone =>
      rw [hvalues] at hnone
      contradiction
    | coming hone hread =>
      rw [hvalues] at hone
      obtain ⟨rfl, hrest⟩ := List.cons.inj hone
      exact ⟨hname, rfl, _, rfl, hread, .settled hrest⟩
  · right
    have hvalues : valuesOf name (m :: ms) = valuesOf name ms := by simp [valuesOf, hname]
    cases h with
    | settled hnone => exact ⟨hname, .settled (hvalues ▸ hnone)⟩
    | coming hone hread => exact ⟨hname, .coming (hvalues ▸ hone) hread⟩

end Due

/-- The members with other names than these hold any values. -/
def OthersHold (names : List Text) (ms : List WrittenMember) : Prop :=
  ∀ m ∈ ms, m.name ∉ names → IsValue m.value

section Pairs

variable {name₁ name₂ : Text} {read₁ : Reader α} {read₂ : Reader β} {a : α} {b : β}

/-- The members of a record of two parts. -/
def pairMembers (name₁ name₂ : Text) (read₁ : Reader α) (read₂ : Reader β) :
    List (Member (Option α × Option β)) :=
  [.of name₁ read₁ (·.1) fun record a => (some a, record.2),
    .of name₂ read₂ (·.2) fun record b => (record.1, some b)]

theorem fills_pair (hne : name₁ ≠ name₂) {record last : Option α × Option β}
    {ms : List WrittenMember} (h₁ : Due name₁ read₁ last.1 record.1 ms)
    (h₂ : Due name₂ read₂ last.2 record.2 ms) (hothers : OthersHold [name₁, name₂] ms) :
    Fills (pairMembers name₁ name₂ read₁ read₂) record ms last := by
  induction ms generalizing record with
  | nil =>
    obtain rfl : record = last := Prod.ext h₁.nil h₂.nil
    exact .nil _
  | cons m ms ih =>
    obtain ⟨hother, hothers⟩ := List.forall_mem_cons.1 hothers
    rcases h₁.cons with ⟨hname, hnone, a', -, hread, hnext⟩ | ⟨hname₁, hnext₁⟩
    · have hname₂ : m.name ≠ name₂ := hname ▸ hne
      have hnext₂ := (h₂.cons.resolve_left fun h => hname₂ h.1).2
      have hfind : (pairMembers name₁ name₂ read₁ read₂).find? (·.name = m.name) =
          some (.of name₁ read₁ (·.1) fun record a => (some a, record.2)) := by
        simp [pairMembers, Member.of, hname]
      exact .of hfind hnone hread (ih hnext hnext₂ hothers)
    rcases h₂.cons with ⟨hname, hnone, b', -, hread, hnext⟩ | ⟨hname₂, hnext₂⟩
    · have hfind : (pairMembers name₁ name₂ read₁ read₂).find? (·.name = m.name) =
          some (.of name₂ read₂ (·.2) fun record b => (record.1, some b)) := by
        simp [pairMembers, Member.of, hname, hne]
      exact .of hfind hnone hread (ih hnext₁ hnext hothers)
    · have hfind : (pairMembers name₁ name₂ read₁ read₂).find? (·.name = m.name) = none := by
        simp [pairMembers, Member.of, Ne.symm hname₁, Ne.symm hname₂]
      exact .other hfind (hother (by simp [hname₁, hname₂])) (ih hnext₁ hnext₂ hothers)

/-- A record of two parts is read from an object that has a member for each. -/
theorem reads_pair {γ : Type} {v₁ v₂ : Text} {c : γ} {ms : List WrittenMember}
    (finish : Option α × Option β → Option γ) (hne : name₁ ≠ name₂) (h : IsObject ms v)
    (h₁ : valuesOf name₁ ms = [v₁]) (hread₁ : Reads read₁ v₁ a) (h₂ : valuesOf name₂ ms = [v₂])
    (hread₂ : Reads read₂ v₂ b) (hothers : OthersHold [name₁, name₂] ms)
    (hfinish : finish (some a, some b) = some c) (hturns : v.length ≤ turns) :
    Reads (readRecord turns (some (pairMembers name₁ name₂ read₁ read₂)) (none, none) finish) v c :=
  reads_record finish h (fills_pair hne (.coming h₁ hread₁) (.coming h₂ hread₂) hothers) hfinish
    hturns

end Pairs

end Logmark.Json
