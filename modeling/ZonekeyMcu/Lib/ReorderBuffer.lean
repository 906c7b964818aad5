-- A buffer that puts elements which come in any order back into the order of their keys.
-- It is a list with the newest element first. An element whose key is there already is left
-- out, and only so many of the newest are kept.
import Mathlib.Data.Finset.Sort

namespace reorder_buffer

variable {α κ : Type} [LinearOrder κ] (key : α → κ)

/-- Every element is newer than those behind it. -/
def Descending (q : List α) : Prop := q.Pairwise fun x y => key y < key x

/-- Puts `x` behind the newer elements. -/
def put (x : α) : List α → List α
  | [] => [x]
  | y :: q =>
    if key x = key y then y :: q
    else if key y < key x then x :: y :: q
    else y :: put x q

section

variable {key} {q : List α} {x : α}

theorem mem_put {y : α} (h : y ∈ put key x q) : y = x ∨ y ∈ q := by
  induction q with
  | nil => exact Or.inl (List.mem_singleton.mp h)
  | cons z q ih =>
    unfold put at h
    split at h
    · exact Or.inr h
    · split at h
      · exact List.mem_cons.mp h
      · rcases List.mem_cons.mp h with rfl | h
        · exact Or.inr List.mem_cons_self
        · exact (ih h).imp_right (List.mem_cons_of_mem z)

theorem key_mem_put {k : κ} : k ∈ (put key x q).map key ↔ k = key x ∨ k ∈ q.map key := by
  induction q with
  | nil => simp [put]
  | cons z q ih =>
    unfold put
    split
    · rename_i hsame
      rw [hsame, List.map_cons, List.mem_cons, or_self_left]
    · split
      · rw [List.map_cons, List.mem_cons]
      · rw [List.map_cons, List.mem_cons, ih, List.map_cons, List.mem_cons]
        exact or_left_comm

theorem descending_put (h : Descending key q) : Descending key (put key x q) := by
  induction q with
  | nil => exact List.pairwise_singleton _ _
  | cons z q ih =>
    obtain ⟨hz, hq⟩ := List.pairwise_cons.mp h
    unfold put
    split
    · exact h
    · rename_i hne
      split
      · rename_i hnew
        refine List.pairwise_cons.mpr ⟨fun y hy => ?_, h⟩
        rcases List.mem_cons.mp hy with rfl | hy
        · exact hnew
        · exact (hz y hy).trans hnew
      · rename_i hold
        refine List.pairwise_cons.mpr ⟨fun y hy => ?_, ih hq⟩
        rcases mem_put hy with rfl | hy
        · exact lt_of_le_of_ne (not_lt.mp hold) hne
        · exact hz y hy

/-- An element that is too old to be kept needs no place. -/
theorem take_put (n : Nat) : (put key x (q.take n)).take n = (put key x q).take n := by
  induction q generalizing n with
  | nil => rw [List.take_nil]
  | cons y q ih =>
    cases n with
    | zero => rw [List.take_zero, List.take_zero]
    | succ n =>
      rw [List.take_succ_cons]
      unfold put
      split
      · rw [List.take_succ_cons, List.take_succ_cons, List.take_take, Nat.min_self]
      · split
        · rw [List.take_succ_cons, List.take_succ_cons]
          cases n with
          | zero => rw [List.take_zero, List.take_zero]
          | succ n =>
            rw [List.take_succ_cons, List.take_succ_cons, List.take_take,
              Nat.min_eq_left (Nat.le_succ n)]
        · rw [List.take_succ_cons, List.take_succ_cons, ih]

end

/-! ## Many arrivals -/

/-- Each of `xs` is put in, and the `n` newest are kept. -/
def putAll (n : Nat) : List α → List α → List α :=
  List.foldl fun q x => (put key x q).take n

/-- The keys of `xs`, newest first. -/
def newest (xs : List α) : List κ := ((xs.map key).toFinset).sort (· ≥ ·)

section

variable {key}

theorem foldl_put_take (n : Nat) (xs q : List α) :
    putAll key n (q.take n) xs = (xs.foldl (fun q x => put key x q) q).take n := by
  induction xs generalizing q with
  | nil => rfl
  | cons x xs ih =>
    unfold putAll at ih ⊢
    rw [List.foldl_cons, List.foldl_cons, take_put, ih]

theorem foldl_put_keys {k : κ} (xs q : List α) :
    k ∈ (xs.foldl (fun q x => put key x q) q).map key ↔ k ∈ xs.map key ∨ k ∈ q.map key := by
  induction xs generalizing q with
  | nil => simp
  | cons x xs ih =>
    rw [List.foldl_cons, ih, key_mem_put, List.map_cons, List.mem_cons, or_assoc, or_left_comm]

theorem foldl_put_descending (xs : List α) {q : List α} (h : Descending key q) :
    Descending key (xs.foldl (fun q x => put key x q) q) := by
  induction xs generalizing q with
  | nil => exact h
  | cons x xs ih => exact ih (descending_put h)

theorem foldl_put_mem {y : α} (xs q : List α) (h : y ∈ xs.foldl (fun q x => put key x q) q) :
    y ∈ xs ∨ y ∈ q := by
  induction xs generalizing q with
  | nil => exact Or.inr h
  | cons x xs ih =>
    rcases ih _ h with h | h
    · exact Or.inl (List.mem_cons_of_mem x h)
    · rcases mem_put h with rfl | h
      · exact Or.inl List.mem_cons_self
      · exact Or.inr h

theorem mem_putAll {n : Nat} {y : α} {xs : List α} (h : y ∈ putAll key n [] xs) : y ∈ xs := by
  rw [show ([] : List α) = List.take n [] from (List.take_nil).symm, foldl_put_take] at h
  exact (foldl_put_mem xs [] (List.mem_of_mem_take h)).resolve_right List.not_mem_nil

/-- A descending list of keys is the enumeration of them. -/
theorem descending_eq_sort {q : List α} {s : Finset κ} (h : Descending key q)
    (hs : ∀ k, k ∈ q.map key ↔ k ∈ s) : q.map key = s.sort (· ≥ ·) := by
  have hstrict : (q.map key).Pairwise (· > ·) := List.pairwise_map.mpr h
  have hs' : (q.map key).toFinset = s := Finset.ext fun k => List.mem_toFinset.trans (hs k)
  rw [← hs']
  exact (((List.toFinset_sort (· ≥ ·)) (hstrict.imp ne_of_gt)).mpr (hstrict.imp le_of_lt)).symm

/-- Whatever the order of the arrivals, the buffer holds the newest of them, in order. -/
theorem putAll_newest (n : Nat) (xs : List α) :
    (putAll key n [] xs).map key = (newest key xs).take n := by
  rw [show ([] : List α) = List.take n [] from (List.take_nil).symm, foldl_put_take,
    List.map_take, descending_eq_sort (foldl_put_descending xs List.Pairwise.nil)
      (s := (xs.map key).toFinset) fun k => by rw [foldl_put_keys]; simp]
  rfl

end

end reorder_buffer
