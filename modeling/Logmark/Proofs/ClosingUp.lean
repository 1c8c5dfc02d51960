import Mathlib.Logic.Function.Iterate
import Mathlib.Logic.Relation
import Logmark.Proofs.Trimming
import Logmark.Statement.Field

/-!
Closing up. Dropping a space beside a double colon can bring another one beside it, so texts are
closed up in turns. Two such spaces can be dropped in either order, since the double colon that one
of them stands beside does not contain the other. Hence all orders end in the same text, and the
turns end in it too.
-/
namespace Logmark.Field

open Text Relation

/-- Drops one space before or after a double colon. -/
inductive Closes : Text → Text → Prop where
  | before (x y : Text) : Closes (x ++ " ::".toList ++ y) (x ++ "::".toList ++ y)
  | after (x y : Text) : Closes (x ++ ":: ".toList ++ y) (x ++ "::".toList ++ y)

/-- No space stands before or after a double colon. -/
def IsClosed (s : Text) : Prop := ¬ " ::".toList <:+: s ∧ ¬ ":: ".toList <:+: s

/-- One turn of closing up: the spaces before double colons are dropped, then those after them. -/
def turn (s : Text) : Text := closeRight (closeLeft s)

variable {s t u x y z : Text}

/-- There is a double colon right before or right after the place between two texts. -/
def Beside (x y : Text) : Prop := "::".toList <:+ x ∨ "::".toList <+: y

theorem closes_iff : Closes s t ↔ ∃ x y, Beside x y ∧ s = x ++ ' ' :: y ∧ t = x ++ y := by
  constructor
  · rintro (⟨x, y⟩ | ⟨x, y⟩)
    · exact ⟨x, "::".toList ++ y, .inr (List.prefix_append _ _), by simp, by simp⟩
    · exact ⟨x ++ "::".toList, y, .inl (List.suffix_append _ _), by simp, by simp⟩
  · rintro ⟨x, y, ⟨x', rfl⟩ | ⟨y', rfl⟩, rfl, rfl⟩
    · simpa using Closes.after x' y
    · simpa using Closes.before x y'

theorem isClosed_iff : IsClosed s ↔ ∀ t, ¬ Closes s t := by
  constructor
  · rintro ⟨hbefore, hafter⟩ t (⟨x, y⟩ | ⟨x, y⟩)
    · exact hbefore (List.infix_append x _ y)
    · exact hafter (List.infix_append x _ y)
  · intro h
    refine ⟨?_, ?_⟩
    · rintro ⟨x, y, rfl⟩
      exact h _ (.before x y)
    · rintro ⟨x, y, rfl⟩
      exact h _ (.after x y)

/-- A text without `c` at the start of another one ends before the first `c`. -/
theorem prefix_of_prefix_append_cons {w : Text} {c : Char} (hc : c ∉ w) (h : w <+: z ++ c :: y) :
    w <+: z := by
  rcases List.prefix_or_prefix_of_prefix h (List.prefix_append z _) with hw | ⟨r, rfl⟩
  · exact hw
  · rw [List.prefix_append_right_inj] at h
    cases r with
    | nil => simp
    | cons d r =>
      rw [(List.cons_prefix_cons.1 h).1] at hc
      simp at hc

theorem suffix_of_suffix_append_cons {w : Text} {c : Char} (hc : c ∉ w) (h : w <:+ x ++ c :: z) :
    w <:+ z := by
  rw [← List.reverse_prefix] at h ⊢
  rw [List.reverse_append, List.reverse_cons, List.append_assoc, List.singleton_append] at h
  exact prefix_of_prefix_append_cons (by simpa using hc) h

/-- The double colon beside a place is not the one that a space elsewhere would interrupt. -/
theorem Beside.drop_left (h : Beside (x ++ ' ' :: z) y) : Beside (x ++ z) y := by
  cases h with
  | inl h =>
    have hz := suffix_of_suffix_append_cons (by decide) h
    exact .inl (hz.trans (List.suffix_append x z))
  | inr h => exact .inr h

theorem Beside.drop_right (h : Beside x (z ++ ' ' :: y)) : Beside x (z ++ y) := by
  cases h with
  | inl h => exact .inl h
  | inr h =>
    have hz := prefix_of_prefix_append_cons (by decide) h
    exact .inr (hz.trans (List.prefix_append z y))

/-- Of two spaces that can be dropped, each can still be dropped after the other. -/
theorem diamond_of_append {y' : Text} (h : Beside x (z ++ ' ' :: y'))
    (h' : Beside (x ++ ' ' :: z) y') :
    ∃ v, Closes (x ++ (z ++ ' ' :: y')) v ∧ Closes (x ++ ' ' :: z ++ y') v :=
  ⟨x ++ (z ++ y'), closes_iff.2 ⟨x ++ z, y', h'.drop_left, by simp, by simp⟩,
    closes_iff.2 ⟨x, z ++ y', h.drop_right, by simp, rfl⟩⟩

theorem Closes.diamond (h : Closes s t) (h' : Closes s u) :
    t = u ∨ ∃ v, Closes t v ∧ Closes u v := by
  obtain ⟨x, y, hxy, rfl, rfl⟩ := closes_iff.1 h
  obtain ⟨x', y', hxy', hs, rfl⟩ := closes_iff.1 h'
  -- Two different places lie one after the other, whichever of them is the first.
  rcases List.append_eq_append_iff.1 hs with ⟨d, rfl, hd⟩ | ⟨d, rfl, hd⟩
  · cases d with
    | nil => simp_all
    | cons e z =>
      obtain ⟨rfl, rfl⟩ := List.cons.inj hd
      exact .inr (diamond_of_append hxy hxy')
  · cases d with
    | nil => simp_all
    | cons e z =>
      obtain ⟨rfl, rfl⟩ := List.cons.inj hd
      obtain ⟨v, hv, hv'⟩ := diamond_of_append hxy' hxy
      exact .inr ⟨v, hv', hv⟩

/-- All orders of dropping spaces can be led to the same text. -/
theorem join_of_closes (h : ReflTransGen Closes s t) (h' : ReflTransGen Closes s u) :
    Join (ReflTransGen Closes) t u := by
  refine church_rosser (fun a b c hb hc => ?_) h h'
  rcases hb.diamond hc with rfl | ⟨d, hbd, hcd⟩
  · exact ⟨b, .refl, .refl⟩
  · exact ⟨d, .single hbd, .single hcd⟩

theorem eq_of_closes_of_isClosed (h : ReflTransGen Closes s t) (hs : IsClosed s) : s = t := by
  cases ReflTransGen.cases_head h with
  | inl heq => exact heq
  | inr hstep =>
    obtain ⟨u, hu, -⟩ := hstep
    exact absurd hu (isClosed_iff.1 hs u)

theorem closed_unique (h : ReflTransGen Closes s t) (h' : ReflTransGen Closes s u)
    (ht : IsClosed t) (hu : IsClosed u) : t = u := by
  obtain ⟨v, htv, huv⟩ := join_of_closes h h'
  rw [eq_of_closes_of_isClosed htv ht, eq_of_closes_of_isClosed huv hu]

theorem Closes.append_left (h : Closes s t) (p : Text) : Closes (p ++ s) (p ++ t) := by
  rcases h with ⟨x, y⟩ | ⟨x, y⟩
  · simpa using Closes.before (p ++ x) y
  · simpa using Closes.after (p ++ x) y

theorem closes_append_left (h : ReflTransGen Closes s t) (p : Text) :
    ReflTransGen Closes (p ++ s) (p ++ t) :=
  h.lift (p ++ ·) fun _ _ hstep => hstep.append_left p

theorem closes_closeLeft (s : Text) : ReflTransGen Closes s (closeLeft s) := by
  fun_induction closeLeft s with
  | case1 s ih => exact .head (.before [] s) (closes_append_left ih "::".toList)
  | case2 c s _ ih => exact closes_append_left ih [c]
  | case3 => exact .refl

theorem closes_closeRight (s : Text) : ReflTransGen Closes s (closeRight s) := by
  fun_induction closeRight s with
  | case1 s ih => exact .head (.after [] s) (closes_append_left ih "::".toList)
  | case2 c s _ ih => exact closes_append_left ih [c]
  | case3 => exact .refl

theorem closes_turn (s : Text) : ReflTransGen Closes s (turn s) :=
  (closes_closeLeft s).trans (closes_closeRight (closeLeft s))

theorem closes_closeUp (s : Text) : ReflTransGen Closes s (closeUp s) := by
  fun_induction closeUp s with
  | case1 s closed h ih => exact (closes_turn s).trans ih
  | case2 s closed h => exact .refl

theorem Closes.sublist (h : Closes s t) : t.Sublist s := by
  obtain ⟨x, y, -, rfl, rfl⟩ := closes_iff.1 h
  exact (List.sublist_cons_self ' ' y).append_left x

theorem Closes.filter_eq (h : Closes s t) : t.filter (· ≠ ' ') = s.filter (· ≠ ' ') := by
  obtain ⟨x, y, -, rfl, rfl⟩ := closes_iff.1 h
  simp

theorem Closes.allBlank_eq (h : Closes s t) : allBlank t = allBlank s := by
  obtain ⟨x, y, -, rfl, rfl⟩ := closes_iff.1 h
  have hspace : isBlank ' ' = true := by decide
  simp only [allBlank_append, allBlank_cons, hspace, Bool.true_and]

theorem Closes.count_add_length (h : Closes s t) :
    s.count ' ' + t.length = t.count ' ' + s.length := by
  obtain ⟨x, y, -, rfl, rfl⟩ := closes_iff.1 h
  simp only [List.count_append, List.count_cons_self, List.length_append, List.length_cons]
  omega

/-- A space that is dropped stands between characters that stay, so no blank comes to an end. -/
theorem Closes.trimmed (h : Closes s t) (hs : Trimmed s) : Trimmed t := by
  obtain ⟨x, y, -, rfl, rfl⟩ := closes_iff.1 h
  have hspace : isBlank ' ' = true := by decide
  have hx : x ≠ [] := by
    rintro rfl
    have := hs.head ' ' rfl
    simp_all
  have hy : y ≠ [] := by
    rintro rfl
    have := hs.last ' ' (by simp)
    simp_all
  constructor
  · intro c hc
    refine hs.head c ?_
    rwa [List.head?_append_of_ne_nil _ hx] at hc ⊢
  · intro c hc
    refine hs.last c ?_
    rw [List.getLast?_append_of_ne_nil _ hy] at hc
    rwa [List.append_cons, List.getLast?_append_of_ne_nil _ hy]

theorem sublist_of_closes (h : ReflTransGen Closes s t) : t.Sublist s := by
  induction h with
  | refl => exact List.Sublist.refl s
  | tail _ hstep ih => exact hstep.sublist.trans ih

/-- What no step changes, no run of steps does. -/
theorem kept_of_closes {α : Type} {f : Text → α} (hf : ∀ {s t}, Closes s t → f t = f s)
    (h : ReflTransGen Closes s t) : f t = f s := by
  induction h with
  | refl => rfl
  | tail _ hstep ih => exact (hf hstep).trans ih

theorem count_add_length_of_closes (h : ReflTransGen Closes s t) :
    s.count ' ' + t.length = t.count ' ' + s.length := by
  induction h with
  | refl => rfl
  | tail _ hstep ih =>
    have := hstep.count_add_length
    omega

theorem trimmed_of_closes (h : ReflTransGen Closes s t) (hs : Trimmed s) : Trimmed t := by
  induction h with
  | refl => exact hs
  | tail _ hstep ih => exact hstep.trimmed ih

/-- Where nothing is dropped, no space stands before a double colon. -/
theorem not_infix_of_closeLeft_eq (h : closeLeft s = s) : ¬ " ::".toList <:+: s := by
  fun_induction closeLeft s with
  | case1 s ih => simp at h
  | case2 c s hne ih =>
    intro hin
    cases List.infix_cons_iff.1 hin with
    | inl hpre =>
      obtain ⟨t, ht⟩ := hpre
      obtain ⟨rfl, rfl⟩ := List.cons.inj ht
      exact hne t rfl rfl
    | inr hin => exact ih (List.cons.inj h).2 hin
  | case3 => decide

/-- Where nothing is dropped, no space stands after a double colon. -/
theorem not_infix_of_closeRight_eq (h : closeRight s = s) : ¬ ":: ".toList <:+: s := by
  fun_induction closeRight s with
  | case1 s ih =>
    have hle := (sublist_of_closes (closes_closeRight s)).length_le
    have hlen := congrArg List.length h
    simp only [List.length_cons] at hlen
    omega
  | case2 c s hne ih =>
    intro hin
    cases List.infix_cons_iff.1 hin with
    | inl hpre =>
      obtain ⟨t, ht⟩ := hpre
      obtain ⟨rfl, rfl⟩ := List.cons.inj ht
      exact hne t rfl rfl
    | inr hin => exact ih (List.cons.inj h).2 hin
  | case3 => decide

/-- What is closed up has no space beside a double colon. -/
theorem closeUp_closed (s : Text) : IsClosed (closeUp s) := by
  fun_induction closeUp s with
  | case1 s closed h ih => exact ih
  | case2 s closed h =>
    have hleft := sublist_of_closes (closes_closeLeft s)
    have hright := sublist_of_closes (closes_closeRight (closeLeft s))
    have hlen : s.length ≤ closed.length := Nat.not_lt.1 h
    have hsame : closeLeft s = s := hleft.eq_of_length_le (hlen.trans hright.length_le)
    rw [hsame] at hright
    have hsame' : closeRight s = s := by
      refine hright.eq_of_length_le ?_
      rwa [show closed = closeRight (closeLeft s) from rfl, hsame] at hlen
    exact ⟨not_infix_of_closeLeft_eq hsame, not_infix_of_closeRight_eq hsame'⟩

/-- Closing up is a loop of turns that ends as soon as a text is closed. Each turn but the last
takes a space away. -/
theorem exists_turns (s : Text) :
    ∃ n ≤ s.count ' ', (∀ m < n, ¬ IsClosed (turn^[m] s)) ∧ closeUp s = turn^[n] s := by
  fun_induction closeUp s with
  | case1 s closed h ih =>
    obtain ⟨n, hn, hopen, heq⟩ := ih
    have hcount : s.count ' ' + closed.length = closed.count ' ' + s.length :=
      count_add_length_of_closes (closes_turn s)
    refine ⟨n + 1, by omega, ?_, heq⟩
    intro m hm
    cases m with
    | zero =>
      intro hs
      have hsame : s = closed := eq_of_closes_of_isClosed (closes_turn s) hs
      rw [← hsame] at h
      exact Nat.lt_irrefl _ h
    | succ m => exact hopen m (Nat.lt_of_succ_lt_succ hm)
  | case2 s closed h => exact ⟨0, Nat.zero_le _, fun m hm => absurd hm (Nat.not_lt_zero m), rfl⟩

theorem closeUp_of_isClosed (h : IsClosed s) : closeUp s = s :=
  (eq_of_closes_of_isClosed (closes_closeUp s) h).symm

end Logmark.Field
