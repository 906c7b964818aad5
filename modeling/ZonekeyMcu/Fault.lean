-- The ways in which the server can stop in the middle of a call. A function of
-- the model that can reach one gives `Except Fault`.
import Mathlib.Tactic.Common

namespace zonekey_mcu

/-- What ends the process, or leaves its behaviour undefined. -/
inductive Fault
  /-- A C `assert` that fails. -/
  | assertFailed
  /-- A method call on a filter pointer that is 0. -/
  | nullFilter
  /-- A read or a write outside an array. -/
  | outOfBounds
  /-- A call on an object after its `delete`. -/
  | useAfterDelete
  /-- A second `delete` of one object. -/
  | doubleDelete
  /-- A loop that does not end. -/
  | neverReturns
  /-- A `printf` whose format converts an argument that is not there. -/
  | missingArgument
  deriving DecidableEq, Repr

section

variable {ε α β : Type}

@[simp] theorem ok_bind (a : α) (f : α → Except ε β) : (Except.ok a >>= f) = f a := rfl

@[simp] theorem error_bind (e : ε) (f : α → Except ε β) :
    (Except.error e >>= f) = Except.error e := rfl

@[simp] theorem pure_eq_ok (a : α) : (pure a : Except ε α) = .ok a := rfl

/-- A call that ends went through its first part. -/
theorem bind_ok {x : Except ε α} {f : α → Except ε β} {b : β} (h : (x >>= f) = .ok b) :
    ∃ a, x = .ok a ∧ f a = .ok b := by
  cases x with
  | ok a => exact ⟨a, rfl, h⟩
  | error e => cases h

/-- A call that faults has no result. -/
theorem not_exists_error (e : ε) (P : α → Prop) :
    ¬ ∃ a, (Except.error e : Except ε α) = .ok a ∧ P a := by
  rintro ⟨a, h, -⟩
  cases h

end

end zonekey_mcu
