-- What a computation that can fault returns, if it returns. A property of the result is
-- carried through a sequence of calls, with one rule for each way to build a sequence.
import Mathlib.Tactic.Common

namespace returns

variable {ε α β : Type}

/-- Each result of `x` has the property. A fault has none. -/
def Returns (x : Except ε α) (P : α → Prop) : Prop := ∀ a, x = .ok a → P a

section

variable {x : Except ε α} {P Q : α → Prop} {R : β → Prop}

theorem returns_ok {a : α} (h : P a) : Returns (Except.ok a : Except ε α) P := by
  intro b hb
  cases hb
  exact h

theorem returns_pure {a : α} (h : P a) : Returns (pure a : Except ε α) P := returns_ok h

theorem returns_error {e : ε} : Returns (Except.error e : Except ε α) P := by
  intro a ha
  cases ha

theorem Returns.bind {f : α → Except ε β} (hx : Returns x P) (hf : ∀ a, P a → Returns (f a) R) :
    Returns (x >>= f) R := by
  intro b hb
  cases hres : x with
  | ok a =>
    rw [hres] at hb
    exact hf a (hx a hres) b hb
  | error e =>
    rw [hres] at hb
    cases hb

/-- The rule for a first part that only reads. -/
theorem returns_bind {f : α → Except ε β} (hf : ∀ a, Returns (f a) R) : Returns (x >>= f) R :=
  Returns.bind (fun _ _ => trivial : Returns x fun _ => True) fun a _ => hf a

/-- A call that was mapped and ended has ended. -/
theorem map_inv {f : α → β} {b : β} (h : x.map f = .ok b) : ∃ a, x = .ok a ∧ f a = b := by
  cases x with
  | ok a => exact ⟨a, rfl, Except.ok.inj h⟩
  | error e => cases h

theorem Returns.map {f : α → β} (hx : Returns x P) (hf : ∀ a, P a → R (f a)) :
    Returns (x.map f) R := by
  intro b hb
  obtain ⟨a, ha, rfl⟩ := map_inv hb
  exact hf a (hx a ha)

end

end returns
