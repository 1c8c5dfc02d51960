import Logmark.Json.Printing
import Logmark.Proofs.JsonRecords

/-!
What is printed is JSON. A printed string spells its text, whatever characters that has, and a
printed object has the members that it is printed from; so it is read back.
-/
namespace Logmark.Json

open Text

variable {σ : Type}

/-- The two digits of a control character write its code. -/
theorem isUnit_hexDigit {n : Nat} (h : n < 0x20) :
    IsUnit n ['0', '0', hexDigit (n / 16), hexDigit (n % 16)] := by
  have hzero : IsHex 0 '0' := ⟨by decide, .inl rfl⟩
  have hhigh : IsHex (n / 16) (hexDigit (n / 16)) := ⟨by omega, .inl rfl⟩
  have hlow : IsHex (n % 16) (hexDigit (n % 16)) := ⟨by omega, .inl rfl⟩
  have hunit := IsUnit.digits hzero hzero hhigh hlow
  have hvalue : ((0 * 16 + 0) * 16 + n / 16) * 16 + n % 16 = n := by omega
  rwa [hvalue] at hunit

/-- A character is escaped by a letter or by its code, or stands as it is. -/
theorem spellsChar_escape (c : Char) : SpellsChar c (escape c) := by
  by_cases hletter : c ∈ ['"', '\\', '\x08', '\x0c', '\n', '\r', '\t']
  · simp only [List.mem_cons, List.not_mem_nil, or_false] at hletter
    rcases hletter with rfl | rfl | rfl | rfl | rfl | rfl | rfl <;> exact .letter (by decide)
  · simp only [List.mem_cons, List.not_mem_nil, or_false, not_or] at hletter
    obtain ⟨hquote, hbackslash, hback, hfeed, hline, hreturn, htab⟩ := hletter
    simp only [escape, hquote, hbackslash, hback, hfeed, hline, hreturn, htab, if_false]
    split
    · rename_i hcontrol
      exact .unit (isUnit_hexDigit hcontrol)
    · rename_i hcontrol
      exact .plain ⟨Nat.le_of_not_lt hcontrol, hquote, hbackslash⟩

theorem spells_flatMap_escape (t : Text) : Spells t (t.flatMap escape) := by
  induction t with
  | nil => exact .nil
  | cons c t ih => exact .cons (spellsChar_escape c) ih

theorem isText_printText (t : Text) : IsText t (printText t) :=
  ⟨_, spells_flatMap_escape t, rfl⟩

/-- A member as it is printed from its name and its value. -/
def printedMember (m : Text × Text) : WrittenMember where
  name := m.1
  key := printText m.1 ++ ": ".toList
  value := m.2
  isKey := by
    refine ⟨m.1.flatMap escape, [], [' '], spells_flatMap_escape m.1, .nil, by simp [Spaces], ?_⟩
    simp [printText]

/-- The members of a printed object behind the first one, and the end of the object. -/
def printMore (ms : List (Text × Text)) : Text :=
  ms.flatMap (fun m => ',' :: '\n' :: ' ' :: ' ' :: (printedMember m).text) ++ ['\n', '\x7d']

theorem intercalate_cons_eq (sep s : Text) (ts : List Text) :
    sep.intercalate (s :: ts) = s ++ ts.flatMap (sep ++ ·) := by
  induction ts generalizing s with
  | nil => simp
  | cons t ts ih =>
    rw [List.intercalate_cons_cons, ih, List.flatMap_cons]
    simp only [List.append_assoc]

theorem printObject_cons (m : Text × Text) (ms : List (Text × Text)) :
    printObject (m :: ms) =
      '\x7b' :: (['\n', ' ', ' '] ++ ((printedMember m).text ++ printMore ms)) := by
  have hline : printObject (m :: ms) = ['\x7b', '\n'] ++ [',', '\n'].intercalate
      ((m :: ms).map fun m => ' ' :: ' ' :: (printedMember m).text) ++ ['\n', '\x7d'] := rfl
  rw [hline, List.map_cons, intercalate_cons_eq, List.flatMap_map, printMore]
  simp

theorem listed_printMore (ms : List (Text × Text)) :
    Listed .object false ((ms.map printedMember).map (·.text)) (printMore ms) := by
  induction ms with
  | nil => exact .done (w := ['\n']) (by simp [Spaces])
  | cons m ms ih =>
    have hmore : printMore (m :: ms) =
        [] ++ ',' :: (['\n', ' ', ' '] ++ ((printedMember m).text ++ printMore ms)) := by
      simp [printMore]
    rw [hmore]
    exact .next .nil (by simp [Spaces]) ih

theorem isObject_printObject (ms : List (Text × Text)) :
    IsObject (ms.map printedMember) (printObject ms) := by
  cases ms with
  | nil => exact .brackets (.done (w := ['\n', '\n']) (by simp [Spaces]))
  | cons m ms =>
    rw [printObject_cons]
    exact .brackets (.start (by simp [Spaces]) (listed_printMore ms))

/-- No other members are printed than those with the names. -/
theorem othersHold_printed {names : List Text} {ms : List (Text × Text)}
    (h : ms.map (·.1) = names) : OthersHold names (ms.map printedMember) := by
  intro m hm hname
  obtain ⟨printed, hprinted, rfl⟩ := List.mem_map.1 hm
  exact absurd (h ▸ List.mem_map_of_mem hprinted) hname

/-- Printed values up to the end of an array, the first of them behind its opening bracket if
`first`. -/
def printItems (first : Bool) : List Text → Text
  | [] => [']']
  | v :: vs => (if first then [] else [',']) ++ (v ++ printItems false vs)

def printArray (vs : List Text) : Text := '[' :: printItems true vs

theorem listed_printItems (first : Bool) (vs : List Text) :
    Listed .array first vs (printItems first vs) := by
  induction vs generalizing first with
  | nil => exact .done .nil
  | cons v vs ih =>
    cases first with
    | true => exact .start .nil (ih false)
    | false => exact .next .nil .nil (ih false)

theorem enclosed_printArray (vs : List Text) : Enclosed .array vs (printArray vs) :=
  .brackets (listed_printItems true vs)

/-- A text that is a printed object, and space behind it, is read as a whole. -/
theorem readAll_printObject {α : Type} {members : List (Member σ)} {empty last : σ}
    (finish : σ → Option α) {a : α} {ms : List (Text × Text)} {w : Text}
    (hfills : Fills members empty (ms.map printedMember) last) (hfinish : finish last = some a)
    (hw : Spaces w) :
    readAll (fun turns => readRecord turns (some members) empty finish) (printObject ms ++ w) =
      .ok a :=
  readAll_of_reads .nil hw fun _ hturns =>
    reads_record finish (isObject_printObject ms) hfills hfinish hturns

end Logmark.Json
