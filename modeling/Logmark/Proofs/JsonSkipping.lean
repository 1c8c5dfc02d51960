import Logmark.Proofs.JsonTokens

/-!
Every JSON value is skipped, however deep it nests. The steps from the start of a value to its end
are counted against the characters of the value, so that a reader that has as many turns as the text
has characters does not run out of them.
-/
namespace Logmark.Json

variable {s t w v rest item : Text} {items : List Text} {frame : Frame} {frames : List Frame}
  {c : Char} {m n : Nat}

/-- A skipping reader comes from one place to another in `n` steps or less. -/
def SkipsWithin (n : Nat) (a b : Place × List Frame × Text) : Prop :=
  ∃ k ≤ n, ∀ turns, skipSteps (k + turns) a.1 a.2.1 a.2.2 = skipSteps turns b.1 b.2.1 b.2.2

namespace SkipsWithin

variable {a b d : Place × List Frame × Text}

theorem trans (h : SkipsWithin m a b) (h' : SkipsWithin n b d) : SkipsWithin (m + n) a d := by
  obtain ⟨k, hk, hsteps⟩ := h
  obtain ⟨k', hk', hsteps'⟩ := h'
  refine ⟨k + k', Nat.add_le_add hk hk', fun turns => ?_⟩
  rw [Nat.add_assoc, hsteps, hsteps']

theorem mono (h : SkipsWithin m a b) (hle : m ≤ n) : SkipsWithin n a b := by
  obtain ⟨k, hk, hsteps⟩ := h
  exact ⟨k, Nat.le_trans hk hle, hsteps⟩

theorem of_before (h : skipStep .before frames s = .ok b) :
    SkipsWithin 1 (.before, frames, s) b := by
  refine ⟨1, Nat.le_refl 1, fun turns => ?_⟩
  rw [Nat.add_comm, skipSteps, h]
  exact nofun

theorem of_after (h : skipStep .after (frame :: frames) s = .ok b) :
    SkipsWithin 1 (.after, frame :: frames, s) b := by
  refine ⟨1, Nat.le_refl 1, fun turns => ?_⟩
  rw [Nat.add_comm, skipSteps, h]
  exact nofun

end SkipsWithin

/-- A text that is skipped as one value, in no more steps than it has characters. -/
structure IsSkipped (v : Text) : Prop where
  starts : Starts v
  skips : ∀ w frames rest, Spaces w → Ends rest →
    SkipsWithin v.length (.before, frames, w ++ (v ++ rest)) (.after, frames, rest)

/-- A value that is no array and no object is skipped in one step. -/
theorem isSkipped_of_scalar (hc : c ∉ '[' :: '\x7b' :: outside)
    (h : ∀ rest, Ends rest → skipScalar (c :: t ++ rest) = .ok rest) : IsSkipped (c :: t) := by
  have hstarts : Starts (c :: t) := ⟨c, t, rfl, fun hmem => hc (.tail _ (.tail _ hmem))⟩
  refine ⟨hstarts, fun w frames rest hw hrest => ?_⟩
  have hskip := h rest hrest
  have hstep : skipStep .before frames (w ++ (c :: t ++ rest)) = .ok (.after, frames, rest) := by
    rw [skipStep, hstarts.skipSpace_append hw]
    rw [List.cons_append] at hskip ⊢
    split
    · rename_i heq
      exact absurd (List.cons.inj heq).1 (ne_of_mem_of_not_mem (by simp) hc).symm
    · rename_i heq
      exact absurd (List.cons.inj heq).1 (ne_of_mem_of_not_mem (by simp) hc).symm
    · rw [hskip]
      rfl
  exact (SkipsWithin.of_before hstep).mono (Nat.le_add_left 1 _)

theorem isSkipped_number {n : Number} (h : n.IsWritten v) : IsSkipped v := by
  obtain ⟨c, t, rfl, hc⟩ := h.exists_cons
  have hother : ∀ d ∈ 'n' :: 't' :: 'f' :: '"' :: '[' :: '\x7b' :: outside,
      d ≠ '-' ∧ d.isDigit = false := by simp [outside]
  have hne : c ∉ 'n' :: 't' :: 'f' :: '"' :: '[' :: '\x7b' :: outside := fun hmem => by
    obtain ⟨hminus, hdigit⟩ := hother c hmem
    rcases hc with rfl | hc
    · exact hminus rfl
    · rw [hdigit] at hc
      cases hc
  refine isSkipped_of_scalar (fun hmem => hne ?_) fun rest hrest => ?_
  · exact List.mem_append_right ['n', 't', 'f', '"'] hmem
  · have hskip := h.skipNumber hrest
    rw [List.cons_append] at hskip ⊢
    rw [skipScalar, if_pos hc, hskip]
    all_goals
      rintro rfl
      exact hne (by simp)

theorem isSkipped_string {body : Text} (h : IsBody body) : IsSkipped ('"' :: (body ++ ['"'])) := by
  refine isSkipped_of_scalar (by decide) fun rest _ => ?_
  have hskip := h.skipString rest
  rw [List.cons_append, List.append_assoc, List.singleton_append, skipScalar, hskip]

/-! ### Arrays and objects -/

/-- Goes on from a bracket or a comma to the value of the next item: behind its key in an object. -/
def enter : Frame → Text → Except Fault Text
  | .array, s => .ok s
  | .object, s => skipKey s

/-- An item whose value is skipped. -/
structure IsItem (frame : Frame) (item : Text) : Prop where
  starts : Starts item
  enters : ∀ w rest, Spaces w → ∃ w' v, Spaces w' ∧ IsSkipped v ∧ v.length ≤ item.length ∧
    enter frame (w ++ (item ++ rest)) = .ok (w' ++ (v ++ rest))

theorem IsSkipped.isItem (h : IsSkipped v) : IsItem .array v :=
  ⟨h.starts, fun w _ hw => ⟨w, v, hw, h, Nat.le_refl _, rfl⟩⟩

/-- A member of an object is an item if its value is skipped. -/
theorem IsSkipped.isItem_append {key : Text} (hkey : IsKey key) (h : IsSkipped v) :
    IsItem .object (key ++ v) := by
  obtain ⟨body, w₁, w₂, hbody, hw₁, hw₂, rfl⟩ := hkey
  have hstarts : Starts ('"' :: (body ++ '"' :: (w₁ ++ ':' :: w₂)) ++ v) :=
    ⟨'"', _, rfl, by decide⟩
  refine ⟨hstarts, fun w rest hw => ⟨w₂, v, hw₂, h, ?_, ?_⟩⟩
  · simp
    omega
  · have hstring := hbody.skipString (w₁ ++ ':' :: (w₂ ++ (v ++ rest)))
    have hcolon : skipColon (w₁ ++ ':' :: (w₂ ++ (v ++ rest))) = .ok (w₂ ++ (v ++ rest)) := by
      rw [skipColon, skipSpace_append hw₁, skipSpace_cons (by decide)]
      rfl
    rw [enter, skipKey, hstarts.skipSpace_append hw]
    simp only [List.cons_append, List.append_assoc, hstring]
    exact hcolon

/-- Behind a value in an open array or object its end comes, or the next item. -/
theorem Listed.ends {first : Bool} (h : Listed frame first items t) (hfirst : first = false)
    (rest : Text) : Ends (t ++ rest) := by
  have hcloses : frame.closing ∈ outside := by cases frame <;> decide
  have hspace : ∀ (w s : Text), Spaces w → Ends s → Ends (w ++ s) := by
    intro w s hw hs c hc
    cases w with
    | nil => exact hs c hc
    | cons d w =>
      obtain rfl : d = c := Option.some.inj hc
      exact List.mem_append_left [',', ']', '\x7d'] (hw d List.mem_cons_self)
  cases h with
  | done hw =>
    rw [List.append_assoc]
    refine hspace _ _ hw ?_
    rintro c ⟨⟩
    exact hcloses
  | start => contradiction
  | next hw _ _ =>
    rw [List.append_assoc]
    refine hspace _ _ hw ?_
    rintro c ⟨⟩
    decide

theorem skipStep_closing (hw : Spaces w) (rest : Text) :
    skipStep .after (frame :: frames) (w ++ frame.closing :: rest) =
      .ok (.after, frames, rest) := by
  have hspace : skipSpace (w ++ frame.closing :: rest) = frame.closing :: rest := by
    rw [skipSpace_append hw, skipSpace_cons (by cases frame <;> decide)]
  unfold skipStep
  dsimp only
  rw [hspace]
  cases frame <;> rfl

theorem skipStep_comma (hw : Spaces w) (h : enter frame s = .ok t) :
    skipStep .after (frame :: frames) (w ++ ',' :: s) = .ok (.before, frame :: frames, t) := by
  have hspace : skipSpace (w ++ ',' :: s) = ',' :: s := by
    rw [skipSpace_append hw, skipSpace_cons (by decide)]
  unfold skipStep
  dsimp only
  rw [hspace]
  cases frame with
  | array =>
    obtain rfl : s = t := Except.ok.inj h
    rfl
  | object =>
    have hkey : skipKey s = .ok t := h
    simp only [hkey]
    rfl

/-- The items that are left are skipped, and the bracket that closes them. -/
theorem Listed.skips {first : Bool} (h : Listed frame first items t) (hfirst : first = false)
    (hitems : ∀ item ∈ items, IsItem frame item) (frames : List Frame) (rest : Text) :
    SkipsWithin t.length (.after, frame :: frames, t ++ rest) (.after, frames, rest) := by
  induction h with
  | @done _ w hw =>
    rw [List.append_assoc, List.singleton_append]
    exact (SkipsWithin.of_after (skipStep_closing hw rest)).mono (by simp)
  | start => contradiction
  | @next w w' item tail items hw hw' htail ih =>
    obtain ⟨hitem, hitems⟩ := List.forall_mem_cons.1 hitems
    obtain ⟨w'', v, hw'', hv, hle, henter⟩ := hitem.enters w' (tail ++ rest) hw'
    have hcomma : SkipsWithin 1
        (.after, frame :: frames, w ++ ',' :: (w' ++ (item ++ tail)) ++ rest)
        (.before, frame :: frames, w'' ++ (v ++ (tail ++ rest))) := by
      refine .of_after ?_
      rw [List.append_assoc, List.cons_append, List.append_assoc, List.append_assoc]
      exact skipStep_comma hw henter
    have hvalue := hv.skips w'' (frame :: frames) (tail ++ rest) hw'' (htail.ends rfl rest)
    refine ((hcomma.trans hvalue).trans (ih rfl hitems)).mono ?_
    simp
    omega

theorem skipSpace_opening (hw : Spaces w) (s : Text) :
    skipSpace (w ++ frame.opening :: s) = frame.opening :: s := by
  rw [skipSpace_append hw, skipSpace_cons (by cases frame <;> decide)]

theorem skipStep_brackets {w' : Text} (hw : Spaces w) (hw' : Spaces w') (rest : Text) :
    skipStep .before frames (w ++ frame.opening :: (w' ++ frame.closing :: rest)) =
      .ok (.after, frames, rest) := by
  have hspace : skipSpace (w' ++ frame.closing :: rest) = frame.closing :: rest := by
    rw [skipSpace_append hw', skipSpace_cons (by cases frame <;> decide)]
  rw [skipStep, skipSpace_opening hw]
  cases frame with
  | array =>
    simp only [Frame.opening, Frame.closing] at hspace ⊢
    rw [hspace]
    rfl
  | object =>
    simp only [Frame.opening, Frame.closing] at hspace ⊢
    rw [hspace]
    rfl

theorem skipStep_opening {w' : Text} (hw : Spaces w) (hw' : Spaces w') (hitem : Starts item)
    (h : enter frame (item ++ s) = .ok t) :
    skipStep .before frames (w ++ frame.opening :: (w' ++ (item ++ s))) =
      .ok (.before, frame :: frames, t) := by
  have hspace := hitem.skipSpace_append hw' s
  obtain ⟨c, tail, rfl, hc⟩ := hitem
  rw [skipStep, skipSpace_opening hw]
  cases frame with
  | array =>
    obtain rfl : c :: tail ++ s = t := Except.ok.inj h
    have hne : c ≠ ']' := (ne_of_mem_of_not_mem (by decide) hc).symm
    simp only [Frame.opening, hspace]
    split
    · rename_i heq
      exact absurd (List.cons.inj heq).1 hne
    · rfl
  | object =>
    have hkey : skipKey (c :: tail ++ s) = .ok t := h
    have hne : c ≠ '\x7d' := (ne_of_mem_of_not_mem (by decide) hc).symm
    simp only [Frame.opening, hspace]
    split
    · rename_i heq
      exact absurd (List.cons.inj heq).1 hne
    · rw [hkey]
      rfl

theorem Enclosed.starts (h : Enclosed frame items v) : Starts v := by
  obtain @⟨t, -⟩ := h
  exact ⟨frame.opening, t, rfl, by cases frame <;> decide⟩

/-- An array or object is skipped if its items are. -/
theorem Enclosed.isSkipped (h : Enclosed frame items v)
    (hitems : ∀ item ∈ items, IsItem frame item) : IsSkipped v := by
  refine ⟨h.starts, fun w frames rest hw hrest => ?_⟩
  obtain ⟨hlisted⟩ := h
  cases hlisted with
  | @done _ w' hw' =>
    rw [List.cons_append, List.append_assoc, List.singleton_append]
    exact (SkipsWithin.of_before (skipStep_brackets hw hw' rest)).mono (by simp)
  | @start w' item tail items hw' htail =>
    obtain ⟨hitem, hitems⟩ := List.forall_mem_cons.1 hitems
    obtain ⟨w'', v, hw'', hv, hle, henter⟩ := hitem.enters [] (tail ++ rest) .nil
    have hopening : SkipsWithin 1
        (.before, frames, w ++ (frame.opening :: (w' ++ (item ++ tail)) ++ rest))
        (.before, frame :: frames, w'' ++ (v ++ (tail ++ rest))) := by
      refine .of_before ?_
      rw [List.cons_append, List.append_assoc, List.append_assoc]
      exact skipStep_opening hw hw' hitem.starts henter
    have hvalue := hv.skips w'' (frame :: frames) (tail ++ rest) hw'' (htail.ends rfl rest)
    refine ((hopening.trans hvalue).trans (htail.skips rfl hitems frames rest)).mono ?_
    simp
    omega

theorem IsValue.isSkipped (h : IsValue v) : IsSkipped v := by
  induction h with
  | null => exact isSkipped_of_scalar (by decide) fun _ _ => rfl
  | true => exact isSkipped_of_scalar (by decide) fun _ _ => rfl
  | false => exact isSkipped_of_scalar (by decide) fun _ _ => rfl
  | number h => exact isSkipped_number h
  | string h => exact isSkipped_string h
  | array h _ ih => exact h.isSkipped fun v hv => (ih v hv).isItem
  | object h hkeys _ ih =>
    refine h.isSkipped fun item hitem => ?_
    obtain ⟨m, hm, rfl⟩ := List.mem_map.1 hitem
    exact (ih m hm).isItem_append (hkeys m hm)

/-- A value is skipped with a turn for each of its characters. -/
theorem IsValue.skipValue (h : IsValue v) (hw : Spaces w) (hrest : Ends rest) {turns : Nat}
    (hturns : v.length ≤ turns) : skipValue turns (w ++ (v ++ rest)) = .ok rest := by
  obtain ⟨k, hk, hsteps⟩ := h.isSkipped.skips w [] rest hw hrest
  obtain ⟨more, rfl⟩ := Nat.exists_eq_add_of_le (Nat.le_trans hk hturns)
  rw [Json.skipValue, hsteps more, skipSteps]

end Logmark.Json
