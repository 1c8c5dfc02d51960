import Logmark.Proofs.ReadingDepth
import Logmark.Proofs.WrittenOutlines

/-!
Outlines are read as they are written. A symbol opens two levels, its object and the array of its
children, and its range two, so that chains of 62 symbols can be read and no longer ones.
-/
namespace Logmark

open Text
open Json (Due Enclosed Ends Fills IsObject Member OthersHold Reader Reads ReadsItem Spaces
  WrittenMember reads_array reads_count reads_pair reads_record reads_text)

variable {turns depth : Nat} {v : Text}

theorem Position.IsWritten.reads {p : Position} (h : p.IsWritten v) (hdepth : 1 ≤ depth)
    (hturns : v.length ≤ turns) : Reads (Position.readJson turns depth) v p := by
  obtain ⟨⟨hline, hcolumn⟩, ms, hobject, hothers, hlines, hcolumns⟩ := h
  rw [Position.readJson, if_neg (Nat.ne_of_gt hdepth)]
  exact reads_pair _ (by decide) hobject hlines (reads_count hline) hcolumns (reads_count hcolumn)
    hothers rfl hturns

theorem Range.IsWritten.reads {r : Range} (h : r.IsWritten v) (hdepth : 2 ≤ depth)
    (hturns : v.length ≤ turns) : Reads (Range.readJson turns depth) v r := by
  obtain ⟨ms, start, stop, hobject, hothers, hstarts, hstart, hstops, hstop⟩ := h
  have hlevel : 1 ≤ depth - 1 := by omega
  rw [Range.readJson, if_neg (by omega)]
  exact reads_pair _ (by decide) hobject hstarts
    (hstart.reads hlevel (Nat.le_trans (hobject.length_le hstarts) hturns)) hstops
    (hstop.reads hlevel (Nat.le_trans (hobject.length_le hstops) hturns)) hothers rfl hturns

namespace SymbolRecord

variable {name₁ name₂ name₃ : Text} {range : Reader Range} {children : Reader (List Symbol)}

/-- The members of a symbol under any names. -/
def membersNamed (name₁ name₂ name₃ : Text) (range : Reader Range)
    (children : Reader (List Symbol)) : List (Member SymbolRecord) :=
  [.of name₁ Json.readText (·.name?) fun record name => { record with name? := some name },
    .of name₂ range (·.range?) fun record r => { record with range? := some r },
    .of name₃ children (·.children?) fun record cs => { record with children? := some cs }]

/-- The members of a symbol are read in any order, if their names differ. -/
theorem fills (h₁₂ : name₁ ≠ name₂) (h₁₃ : name₁ ≠ name₃) (h₂₃ : name₂ ≠ name₃)
    {record last : SymbolRecord} {ms : List WrittenMember}
    (h₁ : Due name₁ Json.readText last.name? record.name? ms)
    (h₂ : Due name₂ range last.range? record.range? ms)
    (h₃ : Due name₃ children last.children? record.children? ms)
    (hothers : OthersHold [name₁, name₂, name₃] ms) :
    Fills (membersNamed name₁ name₂ name₃ range children) record ms last := by
  induction ms generalizing record with
  | nil =>
    obtain rfl : record = last := by
      cases record
      cases last
      cases h₁.nil
      cases h₂.nil
      cases h₃.nil
      rfl
    exact .nil _
  | cons m ms ih =>
    obtain ⟨hother, hothers⟩ := List.forall_mem_cons.1 hothers
    rcases h₁.cons with ⟨hname, hnone, a, -, hread, hnext₁⟩ | ⟨hne₁, hnext₁⟩
    · have hnext₂ := (h₂.cons.resolve_left fun h => h₁₂ (hname.symm.trans h.1)).2
      have hnext₃ := (h₃.cons.resolve_left fun h => h₁₃ (hname.symm.trans h.1)).2
      have hfind : (membersNamed name₁ name₂ name₃ range children).find? (·.name = m.name) =
          some (.of name₁ Json.readText (·.name?)
            fun record name => { record with name? := some name }) := by
        simp [membersNamed, Member.of, hname]
      exact .of hfind hnone hread (ih hnext₁ hnext₂ hnext₃ hothers)
    rcases h₂.cons with ⟨hname, hnone, a, -, hread, hnext₂⟩ | ⟨hne₂, hnext₂⟩
    · have hnext₃ := (h₃.cons.resolve_left fun h => h₂₃ (hname.symm.trans h.1)).2
      have hfind : (membersNamed name₁ name₂ name₃ range children).find? (·.name = m.name) =
          some (.of name₂ range (·.range?) fun record r => { record with range? := some r }) := by
        simp [membersNamed, Member.of, hname, h₁₂]
      exact .of hfind hnone hread (ih hnext₁ hnext₂ hnext₃ hothers)
    rcases h₃.cons with ⟨hname, hnone, a, -, hread, hnext₃⟩ | ⟨hne₃, hnext₃⟩
    · have hfind : (membersNamed name₁ name₂ name₃ range children).find? (·.name = m.name) =
          some (.of name₃ children (·.children?)
            fun record cs => { record with children? := some cs }) := by
        simp [membersNamed, Member.of, hname, h₁₃, h₂₃]
      exact .of hfind hnone hread (ih hnext₁ hnext₂ hnext₃ hothers)
    · have hfind : (membersNamed name₁ name₂ name₃ range children).find? (·.name = m.name) =
          none := by
        simp [membersNamed, Member.of, Ne.symm hne₁, Ne.symm hne₂, Ne.symm hne₃]
      exact .other hfind (hother (by simp [hne₁, hne₂, hne₃]))
        (ih hnext₁ hnext₂ hnext₃ hothers)

end SymbolRecord

mutual

/-- A symbol is read if there are two levels for each symbol of a chain and one more. -/
theorem Symbol.readsItem_of_isWritten : ∀ (s : Symbol) {v : Text} {depth : Nat}, s.IsWritten v →
    v.length ≤ turns → 2 * s.height + 1 ≤ depth → ReadsItem (Symbol.readJson turns depth) v s
  | ⟨name, range, children⟩, v, depth, h, hturns, hdepth => by
    rw [Symbol.IsWritten] at h
    obtain ⟨ms, writtenName, writtenRange, hobject, hothers, hnames, hname, hranges, hrange,
      hchildren⟩ := h
    rw [Symbol.height] at hdepth
    obtain ⟨depth, rfl⟩ : ∃ d, depth = d + 2 := ⟨depth - 2, by omega⟩
    refine ⟨Enclosed.starts hobject, ?_⟩
    have hlevel : 2 * Outline.height children + 1 ≤ depth := by omega
    have hrange : Reads (Range.readJson turns (depth + 1)) writtenRange range :=
      hrange.reads (by omega) (Nat.le_trans (hobject.length_le hranges) hturns)
    have hname : Due "name".toList Json.readText (some name) none ms :=
      .coming hnames (reads_text hname)
    have hrange : Due "range".toList (Range.readJson turns (depth + 1)) (some range) none ms :=
      .coming hranges hrange
    have hfills : ∀ children? : Option (List Symbol),
        Due "children".toList (Symbol.readJsonList turns (depth + 1)) children? none ms →
        Fills (SymbolRecord.members (Range.readJson turns (depth + 1))
          (Symbol.readJsonList turns (depth + 1))) .empty ms ⟨some name, some range, children?⟩ :=
      fun children? hchildren => SymbolRecord.fills (by decide) (by decide) (by decide) hname hrange
        hchildren hothers
    rw [Symbol.readJson]
    rcases hchildren with ⟨hnone, rfl⟩ | ⟨written, vs, hwritten, henclosed, hvs⟩
    · exact reads_record _ hobject (hfills none (.settled hnone)) rfl hturns
    · have hlength := Nat.le_trans (hobject.length_le hwritten) hturns
      have hitems := Outline.readsItem_of_areWritten children hvs
        (fun v hv => Nat.le_trans (henclosed.length_le hv) hlength) hlevel
      have hchildren : Due "children".toList (Symbol.readJsonList turns (depth + 1))
          (some children) none ms := by
        refine .coming hwritten ?_
        rw [Symbol.readJsonList]
        exact reads_array henclosed hitems hlength
      exact reads_record _ hobject (hfills _ hchildren) rfl hturns

theorem Outline.readsItem_of_areWritten : ∀ (outline : List Symbol) {vs : List Text} {depth : Nat},
    Outline.AreWritten outline vs → (∀ v ∈ vs, v.length ≤ turns) →
    2 * Outline.height outline + 1 ≤ depth →
    List.Forall₂ (ReadsItem (Symbol.readJson turns depth)) vs outline
  | [], vs, depth, h, _, _ => by
    rw [Outline.AreWritten] at h
    rw [h]
    exact .nil
  | s :: rest, vs, depth, h, hturns, hdepth => by
    rw [Outline.AreWritten] at h
    obtain ⟨v, vs', rfl, hs, hrest⟩ := h
    obtain ⟨hv, hvs⟩ := List.forall_mem_cons.1 hturns
    rw [Outline.height] at hdepth
    exact .cons (Symbol.readsItem_of_isWritten s hs hv (by omega))
      (Outline.readsItem_of_areWritten rest hrest hvs (by omega))

end

namespace Outline

variable {outline : Outline} {text : Text}

/-- An array of symbols is read if there is one level for it and enough for each of them. -/
theorem reads_of_areWritten {vs : List Text} (hvs : AreWritten outline vs)
    (h : Enclosed .array vs v) (hturns : v.length ≤ turns)
    (hdepth : 2 * outline.height + 2 ≤ depth) :
    Reads (Symbol.readJsonList turns depth) v outline := by
  obtain ⟨depth, rfl⟩ : ∃ d, depth = d + 1 := ⟨depth - 1, by omega⟩
  have hitems := readsItem_of_areWritten outline hvs
    (fun v hv => Nat.le_trans (h.length_le hv) hturns) (Nat.le_of_succ_le_succ hdepth)
  rw [Symbol.readJsonList]
  exact reads_array h hitems hturns

/-- Where an array comes, a list of symbols is read. -/
theorem readJson_eq {w : Text} {vs : List Text} (hw : Spaces w) (h : Enclosed .array vs v)
    (rest : Text) : readJson turns (w ++ (v ++ rest)) =
      Symbol.readJsonList turns Json.maxDepth (v ++ rest) := by
  have hspace := h.starts.skipSpace_append hw rest
  obtain ⟨-⟩ := h
  rw [readJson, hspace]
  rfl

/-- No more levels are opened for a list of symbols than there are. -/
theorem height_le_of_readJsonList {s rest : Text}
    (h : Symbol.readJsonList turns Json.maxDepth s = .ok (outline, rest)) :
    outline.height ≤ 62 := by
  rw [height_le_iff]
  intro symbol hsymbol
  have hlevels := (Symbol.readJson_gives turns Json.maxDepth).2 s _ h symbol hsymbol
  rw [Json.maxDepth] at hlevels
  omega

/-- Where an outline is written, nothing else is read: with more levels the same would be read, and
with enough of them that is the outline. -/
theorem eq_of_areWritten {other : Outline} {vs : List Text} {rest rest' : Text}
    (hvs : AreWritten outline vs) (h : Enclosed .array vs v) (hturns : v.length ≤ turns)
    (hrest : Ends rest) (hread : Symbol.readJsonList turns depth (v ++ rest) = .ok (other, rest')) :
    other = outline := by
  have hdepth := Nat.le_max_left depth (2 * outline.height + 2)
  have hmore := (Symbol.readJson_mono turns hdepth).2 _ _ _ hread
  have houtline := reads_of_areWritten hvs h hturns (Nat.le_max_right depth _) [] rest .nil hrest
  cases hmore.symm.trans houtline
  rfl

/-- An outline is read from every text that it is written as, if it has no chain of more than 62
symbols, and from none if it has a longer one. -/
theorem ofJson_of_isWritten (h : outline.IsWritten text) :
    (outline.height ≤ 62 → ofJson text = .ok outline) ∧
      (62 < outline.height → ∃ fault, ofJson text = .error fault) := by
  obtain ⟨w, v, w', vs, hw, hw', rfl, henclosed, hvs⟩ := h
  constructor
  · intro hheight
    refine Json.readAll_of_reads hw hw' fun turns hturns w rest hw hrest => ?_
    have hdepth : 2 * outline.height + 2 ≤ Json.maxDepth := by
      rw [Json.maxDepth]
      omega
    rw [readJson_eq hw henclosed]
    exact reads_of_areWritten hvs henclosed hturns hdepth [] rest .nil hrest
  · intro hheight
    cases hread : ofJson (w ++ (v ++ w')) with
    | error fault => exact ⟨fault, rfl⟩
    | ok other =>
      obtain ⟨rest, hlist, -⟩ := Json.readAll_eq_ok_iff.1 hread
      rw [readJson_eq hw henclosed] at hlist
      have hturns : v.length ≤ (w ++ (v ++ w')).length + 1 := by
        rw [List.length_append, List.length_append]
        omega
      obtain rfl := eq_of_areWritten hvs henclosed hturns hw'.ends hlist
      have hfits := height_le_of_readJsonList hlist
      omega

/-- Symbols of one name and one range, each the only child of the one before. -/
def chain (name : Text) (range : Range) : Nat → Outline
  | 0 => []
  | n + 1 => [⟨name, range, chain name range n⟩]

theorem height_chain (name : Text) (range : Range) (n : Nat) : (chain name range n).height = n := by
  induction n with
  | zero => rfl
  | succ n ih => rw [chain, height, Symbol.height, ih, height, Nat.max_zero]

theorem isWritten_chain (name : Text) {range : Range} (h : range.HasCounts) (n : Nat) :
    (chain name range n).IsWritten (chain name range n).toJson := by
  refine isWritten_toJson ?_
  induction n with
  | zero => exact trivial
  | succ n ih => exact ⟨⟨h, ih⟩, trivial⟩

/-- A printed chain of 62 symbols is read, and one of 63 is not. A symbol is read as well if it has
its members in another order, one more of them and no children. -/
theorem ofJson_of_isWritten_chain :
    let range : Range := ⟨⟨0, 0⟩, ⟨maxCount, 1⟩⟩
    let outline := chain ['f'] range
    let members := [("kind".toList, Json.printCount 12), ("range".toList, range.toJson),
      ("name".toList, Json.printText ['f'])]
    ofJson (outline 62).toJson = .ok (outline 62) ∧
      (∃ fault, ofJson (outline 63).toJson = .error fault) ∧
      ofJson ("[\n".toList ++ (Json.printObject members ++ "\n]\n".toList)) = .ok (outline 1) := by
  intro range outline members
  have hcounts : range.HasCounts := ⟨⟨by decide, by decide⟩, Nat.le_refl _, by decide⟩
  have hheight (n : Nat) : (outline n).height = n := height_chain _ _ n
  have hwritten (n : Nat) : (outline n).IsWritten (outline n).toJson :=
    isWritten_chain _ hcounts n
  have hmembers : (outline 1).IsWritten
      ("[\n".toList ++ (Json.printObject members ++ "\n]\n".toList)) := by
    have hitems : Json.Listed .array true [Json.printObject members]
        (['\n'] ++ (Json.printObject members ++ (['\n'] ++ [']']))) :=
      .start (by simp [Spaces]) (.done (by simp [Spaces]))
    refine ⟨[], _, ['\n'], _, .nil, by simp [Spaces], ?_, .brackets hitems, ?_⟩
    · simp [Json.Frame.opening]
    · refine ⟨_, [], rfl, ?_, rfl⟩
      refine ⟨_, _, _, Json.isObject_printObject _, ?_, rfl, Json.isText_printText _, rfl,
        range.isWritten_toJson hcounts, .inl ⟨rfl, rfl⟩⟩
      have hkind : Json.IsValue (Json.printCount 12) := .number (Json.Number.isWritten_numeral 12)
      simpa [Json.OthersHold, members, Json.printedMember] using hkind
  refine ⟨(ofJson_of_isWritten (hwritten 62)).1 ?_, (ofJson_of_isWritten (hwritten 63)).2 ?_,
    (ofJson_of_isWritten hmembers).1 ?_⟩
  · rw [hheight]
  · rw [hheight]
    decide
  · rw [hheight]
    decide

end Outline
end Logmark
