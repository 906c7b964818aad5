-- Ids from a counter that goes round: after the last id comes the first one again. An object
-- keeps the number of the ids that were taken before its own. So a new id is one that a live
-- object has exactly when the counter has gone round a whole number of times since then.
import Mathlib.Algebra.Ring.Int.Defs
import Mathlib.Data.Nat.ModEq
import Mathlib.Tactic.Common

namespace cyclic_ids

/-! ## The ids of a counter -/

/-- The ids `first`, `first + stride` and so on, `period` of them, from the one at `offset`. -/
structure Cycle where
  first : Int
  stride : Int
  offset : Nat
  period : Nat
  stride_ne : stride ≠ 0
  period_pos : 0 < period

/-- The id that is taken after `k` others. -/
def Cycle.nth (cy : Cycle) (k : Nat) : Int :=
  cy.first + cy.stride * (((cy.offset + k) % cy.period : Nat) : Int)

section

variable {cy : Cycle}

/-- One id after another, and the first one after the last. -/
theorem nth_succ (cy : Cycle) (k : Nat) :
    cy.nth (k + 1) = if (cy.offset + k) % cy.period + 1 = cy.period then cy.first
      else cy.nth k + cy.stride := by
  have hlt := Nat.mod_lt (cy.offset + k) cy.period_pos
  unfold Cycle.nth
  rw [← Nat.add_assoc, ← Nat.mod_add_mod]
  split
  · rename_i hlast
    rw [hlast, Nat.mod_self]
    simp
  · rename_i hmore
    rw [Nat.mod_eq_of_lt (by omega)]
    push_cast
    rw [mul_add, mul_one, add_assoc]

/-- Two ids are the same exactly when the counter went round between them. -/
theorem nth_eq_iff {j k : Nat} (h : j ≤ k) : cy.nth j = cy.nth k ↔ cy.period ∣ k - j := by
  have hmod : cy.nth j = cy.nth k ↔ cy.offset + j ≡ cy.offset + k [MOD cy.period] := by
    unfold Cycle.nth
    rw [add_right_inj, mul_right_inj' cy.stride_ne, Int.ofNat_inj]
    exact Iff.rfl
  rw [hmod, Nat.modEq_iff_dvd' (by omega), Nat.add_sub_add_left]

end

/-! ## Objects with ids -/

/-- How many ids were taken, and how many before that of each object. -/
structure Tally (κ : Type) where
  taken : Nat
  number : κ → Nat

def Tally.start {κ : Type} : Tally κ := ⟨0, fun _ => 0⟩

/-- The tally after a step that took an id, if `moved`, and that has made the objects in
`made`. -/
def Tally.next {κ : Type} (t : Tally κ) (moved : Prop) [Decidable moved] (made : κ → Prop)
    [DecidablePred made] : Tally κ where
  taken := if moved then t.taken + 1 else t.taken
  number key := if made key then t.taken else t.number key

/-- Each object has the id that came after the ids taken before it was made. -/
structure Numbered {α κ : Type} (cy : Cycle) (t : Tally κ) (key : α → κ) (id : α → Int)
    (xs : List α) : Prop where
  id_eq : ∀ x ∈ xs, id x = cy.nth (t.number (key x))
  earlier : ∀ x ∈ xs, t.number (key x) < t.taken

/-- No live object has seen the counter go round a whole number of times. -/
def Unmet {α κ : Type} (cy : Cycle) (t : Tally κ) (key : α → κ) (xs : List α) : Prop :=
  ∀ x ∈ xs, ¬ cy.period ∣ t.taken - t.number (key x)

/-- The objects of `ys` are those of `xs`, or some of them, with what may have changed but
the key and the id. -/
def Kept {α κ : Type} (key : α → κ) (id : α → Int) (xs ys : List α) : Prop :=
  ∀ y ∈ ys, ∃ x ∈ xs, key x = key y ∧ id x = id y

section

variable {α κ : Type} {cy : Cycle} {t : Tally κ} {key : α → κ} {id : α → Int} {xs ys zs : List α}

/-- The next id is not in use exactly when no live object has met it. -/
theorem Numbered.fresh_iff (h : Numbered cy t key id xs) :
    cy.nth t.taken ∉ xs.map id ↔ Unmet cy t key xs := by
  have hsame : ∀ x ∈ xs, id x = cy.nth t.taken ↔ cy.period ∣ t.taken - t.number (key x) := by
    intro x hx
    rw [h.id_eq x hx]
    exact nth_eq_iff (Nat.le_of_lt (h.earlier x hx))
  rw [List.mem_map]
  constructor
  · exact fun hfresh x hx hround => hfresh ⟨x, hx, (hsame x hx).mpr hround⟩
  · rintro hunmet ⟨x, hx, heq⟩
    exact hunmet x hx ((hsame x hx).mp heq)

theorem numbered_nil : Numbered cy t key id [] :=
  ⟨fun _ hx => absurd hx List.not_mem_nil, fun _ hx => absurd hx List.not_mem_nil⟩

theorem Numbered.subset (h : Numbered cy t key id xs) (hsub : ∀ y ∈ ys, y ∈ xs) :
    Numbered cy t key id ys :=
  ⟨fun y hy => h.id_eq y (hsub y hy), fun y hy => h.earlier y (hsub y hy)⟩

theorem Kept.refl (key : α → κ) (id : α → Int) (xs : List α) : Kept key id xs xs :=
  fun x hx => ⟨x, hx, rfl, rfl⟩

theorem Kept.trans (h : Kept key id xs ys) (h' : Kept key id ys zs) : Kept key id xs zs := by
  intro z hz
  obtain ⟨y, hy, hkey, hid⟩ := h' z hz
  obtain ⟨x, hx, hkey', hid'⟩ := h y hy
  exact ⟨x, hx, hkey'.trans hkey, hid'.trans hid⟩

theorem kept_of_subset (h : ∀ y ∈ ys, y ∈ xs) : Kept key id xs ys :=
  fun y hy => ⟨y, h y hy, rfl, rfl⟩

theorem kept_map {f : α → α} (hkey : ∀ x, key (f x) = key x) (hid : ∀ x, id (f x) = id x) :
    Kept key id xs (xs.map f) := by
  intro y hy
  obtain ⟨x, hx, rfl⟩ := List.mem_map.mp hy
  exact ⟨x, hx, (hkey x).symm, (hid x).symm⟩

theorem kept_turn {before after : List α} {x x' : α} (hxs : xs = before ++ x :: after)
    (hkey : key x' = key x) (hid : id x' = id x) : Kept key id xs (before ++ x' :: after) := by
  intro y hy
  rcases List.mem_append.mp hy with hm | hm
  · exact ⟨y, by simp [hxs, hm], rfl, rfl⟩
  · rcases List.mem_cons.mp hm with rfl | hm
    · exact ⟨x, by simp [hxs], hkey.symm, hid.symm⟩
    · exact ⟨y, by simp [hxs, hm], rfl, rfl⟩

variable {moved : Prop} [Decidable moved] {made : κ → Prop} [DecidablePred made]

theorem taken_moved (h : moved) : (t.next moved made).taken = t.taken + 1 := if_pos h

/-- A counter that has moved is at the next id. -/
theorem nth_moved {x : Int} (h : moved) (hx : x = cy.nth (t.taken + 1)) :
    x = cy.nth (t.next moved made).taken := by rwa [taken_moved h]

theorem nth_still {x : Int} (h : ¬ moved) (hx : x = cy.nth t.taken) :
    x = cy.nth (t.next moved made).taken := by
  have htaken : (t.next moved made).taken = t.taken := if_neg h
  rwa [htaken]

theorem taken_le : t.taken ≤ (t.next moved made).taken := by
  unfold Tally.next
  dsimp only
  split
  · exact Nat.le_succ _
  · exact Nat.le_refl _

/-- Objects that were there before keep their numbers. -/
theorem Numbered.kept (h : Numbered cy t key id xs) (hold : ∀ x ∈ xs, ¬ made (key x))
    (hk : Kept key id xs ys) : Numbered cy (t.next moved made) key id ys := by
  have hnumber : ∀ y ∈ ys, ∃ x ∈ xs, key x = key y ∧ id x = id y ∧
      (t.next moved made).number (key y) = t.number (key x) := by
    intro y hy
    obtain ⟨x, hx, hkey, hid⟩ := hk y hy
    refine ⟨x, hx, hkey, hid, ?_⟩
    rw [← hkey]
    exact if_neg (hold x hx)
  refine ⟨fun y hy => ?_, fun y hy => ?_⟩
  · obtain ⟨x, hx, -, hid, heq⟩ := hnumber y hy
    rw [heq, ← hid]
    exact h.id_eq x hx
  · obtain ⟨x, hx, -, -, heq⟩ := hnumber y hy
    rw [heq]
    exact Nat.lt_of_lt_of_le (h.earlier x hx) taken_le

/-- A new object gets the next id. -/
theorem Numbered.add (h : Numbered cy t key id xs) (hold : ∀ x ∈ xs, ¬ made (key x))
    (hk : Kept key id xs ys) {x : α} (hmoved : moved) (hmade : made (key x))
    (hid : id x = cy.nth t.taken) : Numbered cy (t.next moved made) key id (ys ++ [x]) := by
  have hys : Numbered cy (t.next moved made) key id ys := h.kept hold hk
  have hnumber : (t.next moved made).number (key x) = t.taken := if_pos hmade
  refine ⟨fun y hy => ?_, fun y hy => ?_⟩
  · rcases List.mem_append.mp hy with hy | hy
    · exact hys.id_eq y hy
    · rw [List.mem_singleton.mp hy, hnumber, hid]
  · rcases List.mem_append.mp hy with hy | hy
    · exact hys.earlier y hy
    · rw [List.mem_singleton.mp hy, hnumber, taken_moved hmoved]
      exact Nat.lt_succ_self _

end

end cyclic_ids
