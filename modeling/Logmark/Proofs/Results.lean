/-!
Computations that may fail, seen from the results that they give. What every step of a computation
makes sure of, the computation makes sure of.
-/
namespace Logmark

variable {ε α β : Type} {P Q : α → Prop} {x : Except ε α}

theorem bind_eq_ok {f : α → Except ε β} {b : β} (h : x >>= f = .ok b) :
    ∃ a, x = .ok a ∧ f a = .ok b := by
  cases x with
  | error error => cases h
  | ok a => exact ⟨a, rfl, h⟩

theorem toOption_eq_some_iff {a : α} : x.toOption = some a ↔ x = .ok a := by
  cases x <;> simp [Except.toOption]

/-- If a computation gives a result, the result has a property. -/
def Gives (x : Except ε α) (P : α → Prop) : Prop := ∀ a, x = .ok a → P a

namespace Gives

theorem ok {a : α} (h : P a) : Gives (.ok a : Except ε α) P := by
  rintro _ ⟨⟩
  exact h

theorem error (error : ε) : Gives (.error error : Except ε α) P := nofun

theorem bind {f : α → Except ε β} {R : β → Prop} (hx : Gives x P)
    (hf : ∀ a, P a → Gives (f a) R) : Gives (x >>= f) R := by
  intro b hb
  obtain ⟨a, ha, hb⟩ := bind_eq_ok hb
  exact hf a (hx a ha) b hb

/-- The last step of a computation decides, whatever the steps before it give. -/
theorem of_bind {f : α → Except ε β} {R : β → Prop} (hf : ∀ a, Gives (f a) R) :
    Gives (x >>= f) R := by
  intro b hb
  obtain ⟨a, -, hb⟩ := bind_eq_ok hb
  exact hf a b hb

theorem mono (h : Gives x P) (hPQ : ∀ a, P a → Q a) : Gives x Q := fun a ha => hPQ a (h a ha)

end Gives
end Logmark
