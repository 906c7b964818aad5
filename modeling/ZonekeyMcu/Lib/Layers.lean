-- Layers that lie on each other, the last one on top. What is seen at a point is the last
-- layer that covers it.
import Mathlib.Tactic.Common

namespace layers

variable {α : Type}

/-- The last element of a list with a property. -/
def top (covers : α → Bool) (l : List α) : Option α := (l.filter covers).getLast?

@[simp] theorem top_nil (covers : α → Bool) : top covers [] = none := rfl

/-- The first layer is seen where no other covers it. -/
theorem top_cons (covers : α → Bool) (a : α) (l : List α) :
    top covers (a :: l) = (top covers l).or (if covers a then some a else none) := by
  unfold top
  by_cases h : covers a = true
  · rw [List.filter_cons_of_pos h, if_pos h]
    cases l.filter covers with
    | nil => rfl
    | cons b rest =>
      rw [List.getLast?_cons_cons]
      obtain ⟨last, hlast⟩ := Option.isSome_iff_exists.mp
        (List.getLast?_isSome.mpr (List.cons_ne_nil b rest))
      rw [hlast]
      rfl
  · rw [List.filter_cons_of_neg h, if_neg h, Option.or_none]

/-- What is seen through the layers, over a ground. -/
def seen {β : Type} (covers : α → Bool) (value : α → β) (l : List α) (ground : β) : β :=
  ((top covers l).map value).getD ground

/-- The first layer is the ground of the others. -/
theorem seen_cons {β : Type} (covers : α → Bool) (value : α → β) (a : α) (l : List α)
    (ground : β) :
    seen covers value (a :: l) ground =
      seen covers value l (if covers a then value a else ground) := by
  unfold seen
  rw [top_cons]
  cases top covers l with
  | some b => rfl
  | none =>
    rw [Option.none_or]
    split <;> rfl

theorem seen_cons_of_not {β : Type} {covers : α → Bool} {value : α → β} {a : α} (l : List α)
    (ground : β) (h : covers a = false) :
    seen covers value (a :: l) ground = seen covers value l ground := by
  rw [seen_cons, h]
  rfl

end layers
