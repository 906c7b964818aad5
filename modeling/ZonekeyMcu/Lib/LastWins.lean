-- A list of pairs that is read as a map. Of the pairs with one key, the last one counts.
import Mathlib.Tactic.Common

namespace last_wins

variable {κ α : Type} [DecidableEq κ]

/-- The value of the last pair with the key. -/
def last (key : κ) : List (κ × α) → Option α
  | [] => none
  | (k, v) :: pairs => (last key pairs).or (if k = key then some v else none)

section

variable {key : κ} {pairs : List (κ × α)}

@[simp] theorem last_nil (key : κ) : last key ([] : List (κ × α)) = none := rfl

theorem last_append (key : κ) (front back : List (κ × α)) :
    last key (front ++ back) = (last key back).or (last key front) := by
  induction front with
  | nil => simp
  | cons pair front ih =>
    obtain ⟨k, v⟩ := pair
    rw [List.cons_append, last, last, ih, Option.or_assoc]

theorem last_snoc (key k : κ) (v : α) (pairs : List (κ × α)) :
    last key (pairs ++ [(k, v)]) = if k = key then some v else last key pairs := by
  rw [last_append, last, last_nil, Option.none_or]
  split <;> simp

theorem last_isSome : (last key pairs).isSome = true ↔ ∃ pair ∈ pairs, pair.1 = key := by
  induction pairs with
  | nil => simp
  | cons pair pairs ih =>
    obtain ⟨k, v⟩ := pair
    rw [last, Option.isSome_or, Bool.or_eq_true, ih]
    by_cases hk : k = key
    · simp [hk]
    · simp [hk]

end

/-! ## Items that are read as pairs -/

section

variable {ι : Type} {read plain : ι → Option (κ × α)} {key : κ} {items front back : List ι} {x : ι}

theorem last_of_none (h : ∀ y ∈ items, ∀ v, read y ≠ some (key, v)) :
    last key (items.filterMap read) = none := by
  rw [← Option.not_isSome_iff_eq_none, last_isSome]
  rintro ⟨⟨k, v⟩, hpair, rfl⟩
  obtain ⟨y, hy, hread⟩ := List.mem_filterMap.mp hpair
  exact h y hy v hread

/-- When no item behind `x` has the key, the value is that of `x`, or of an item before it. -/
theorem last_of_split (h : ∀ y ∈ back, ∀ v, read y ≠ some (key, v)) :
    last key ((front ++ x :: back).filterMap read) =
      (last key (read x).toList).or (last key (front.filterMap read)) := by
  rw [List.filterMap_append, last_append, ← List.singleton_append, List.filterMap_append,
    last_append, last_of_none h, Option.none_or]
  cases hx : read x with
  | none => simp [hx]
  | some pair => simp [hx]

omit [DecidableEq κ] in
/-- The last item with the key, if there is one. -/
theorem last_item (read : ι → Option (κ × α)) (key : κ) (items : List ι) :
    (∀ y ∈ items, ∀ v, read y ≠ some (key, v)) ∨
      ∃ front x back v, items = front ++ x :: back ∧ read x = some (key, v) ∧
        ∀ y ∈ back, ∀ w, read y ≠ some (key, w) := by
  induction items with
  | nil => exact .inl fun y hy => absurd hy List.not_mem_nil
  | cons z items ih =>
    rcases ih with hnone | ⟨front, x, back, v, rfl, hx, hback⟩
    · by_cases hz : ∃ v, read z = some (key, v)
      · obtain ⟨v, hv⟩ := hz
        exact .inr ⟨[], z, items, v, rfl, hv, hnone⟩
      · exact .inl (List.forall_mem_cons.mpr ⟨fun v hv => hz ⟨v, hv⟩, hnone⟩)
    · exact .inr ⟨z :: front, x, back, v, rfl, hx, hback⟩

/-- Where one reading finds a key in an item, the other one finds the same key. Then both give
the same map exactly when the last item under each key has the value in both, or has no key in
the plain reading and repeats the value that the key has before it. -/
theorem same_last_iff (hkey : ∀ y k v, plain y = some (k, v) → ∃ w, read y = some (k, w)) :
    (∀ key, last key (items.filterMap read) = last key (items.filterMap plain)) ↔
      ∀ front x back k v, items = front ++ x :: back → read x = some (k, v) →
        (∀ y ∈ back, ∀ w, read y ≠ some (k, w)) →
        match plain x with
        | some pair => pair.2 = v
        | none => last k (front.filterMap plain) = some v := by
  have hplain : ∀ (k : κ) (back : List ι), (∀ y ∈ back, ∀ w, read y ≠ some (k, w)) →
      ∀ y ∈ back, ∀ w, plain y ≠ some (k, w) := by
    intro k back hback y hy w hw
    obtain ⟨w', hw'⟩ := hkey y k w hw
    exact hback y hy w' hw'
  -- the values under the key of the last item, in both readings
  have hsplit : ∀ (front : List ι) (x : ι) (back : List ι) (k : κ) (v : α), read x = some (k, v) →
      (∀ y ∈ back, ∀ w, read y ≠ some (k, w)) →
      (last k ((front ++ x :: back).filterMap read) =
          last k ((front ++ x :: back).filterMap plain) ↔
        match plain x with
        | some pair => pair.2 = v
        | none => last k (front.filterMap plain) = some v) := by
    intro front x back k v hx hback
    rw [last_of_split hback, last_of_split (hplain k back hback), hx]
    cases hpx : plain x with
    | none => simp [last, eq_comm]
    | some pair =>
      obtain ⟨k', v'⟩ := pair
      obtain ⟨w, hw⟩ := hkey x k' v' hpx
      obtain ⟨rfl, -⟩ : k = k' ∧ v = w := by
        rw [hx] at hw
        simpa using hw
      simp [last, eq_comm]
  constructor
  · rintro hall front x back k v rfl hx hback
    exact (hsplit front x back k v hx hback).mp (hall k)
  · intro hlast key
    rcases last_item read key items with hnone | ⟨front, x, back, v, rfl, hx, hback⟩
    · rw [last_of_none hnone, last_of_none (hplain key items hnone)]
    · exact (hsplit front x back key v hx hback).mpr (hlast front x back key v rfl hx hback)

end

end last_wins
