-- Moves of one element through a list that is read as an order: one place up,
-- one place down, to the top (the last place) and to the bottom (the first).
import Mathlib.Data.List.Induction
import Mathlib.Data.List.Nodup
import Mathlib.Logic.Relation
import Mathlib.Tactic.Common

namespace list_moves

variable {α : Type}

/-- A new element at the end. -/
theorem nodup_append_one {a : α} {l : List α} (h : l.Nodup) (ha : a ∉ l) : (l ++ [a]).Nodup := by
  rw [← List.concat_eq_append]
  exact h.concat ha

variable [DecidableEq α]

/-- The first `a` changes places with the element after it. -/
def up (a : α) : List α → List α
  | x :: y :: l => if x = a then y :: x :: l else x :: up a (y :: l)
  | l => l

/-- The first `a` changes places with the element before it. -/
def down (a : α) : List α → List α
  | x :: y :: l =>
    if x = a then x :: y :: l
    else if y = a then y :: x :: l
    else x :: down a (y :: l)
  | l => l

def toTop (a : α) (l : List α) : List α := if a ∈ l then l.erase a ++ [a] else l

def toBottom (a : α) (l : List α) : List α := if a ∈ l then a :: l.erase a else l

/-- The order of the elements other than `a`. -/
def others (a : α) (l : List α) : List α := l.filter (· ≠ a)

@[simp] theorem others_cons_self (a : α) (l : List α) : others a (a :: l) = others a l := by
  simp [others]

@[simp] theorem others_cons_ne {a x : α} (l : List α) (h : x ≠ a) :
    others a (x :: l) = x :: others a l := by
  simp [others, h]

@[simp] theorem others_append (a : α) (l l' : List α) :
    others a (l ++ l') = others a l ++ others a l' := List.filter_append l l'

/-- A change of the place of `a` alone: the same elements, and the others in
the same order. -/
def Moves (a : α) (l l' : List α) : Prop := l'.Perm l ∧ others a l' = others a l

theorem Moves.refl (a : α) (l : List α) : Moves a l l := ⟨List.Perm.refl l, rfl⟩

theorem Moves.cons {a : α} {l l' : List α} (x : α) (h : Moves a l l') :
    Moves a (x :: l) (x :: l') := by
  refine ⟨h.1.cons x, ?_⟩
  by_cases hx : x = a
  · subst hx; simpa using h.2
  · simpa [hx] using h.2

theorem moves_swap (a y : α) (l : List α) : Moves a (a :: y :: l) (y :: a :: l) := by
  refine ⟨List.Perm.swap a y l, ?_⟩
  by_cases hy : y = a
  · subst hy; rfl
  · simp [hy]

theorem moves_swap' (a x : α) (l : List α) : Moves a (x :: a :: l) (a :: x :: l) := by
  obtain ⟨hp, ho⟩ := moves_swap a x l
  exact ⟨hp.symm, ho.symm⟩

theorem others_erase (a : α) (l : List α) : others a (l.erase a) = others a l := by
  induction l with
  | nil => rfl
  | cons x l ih =>
    by_cases hx : x = a
    · subst hx; simp
    · rw [List.erase_cons_tail (by simpa using hx), others_cons_ne _ hx, others_cons_ne _ hx, ih]

theorem up_moves (a : α) (l : List α) : Moves a l (up a l) := by
  fun_induction up a l with
  | case1 y l => exact moves_swap a y l
  | case2 x y l hx ih => exact ih.cons x
  | case3 l => exact Moves.refl a l

theorem down_moves (a : α) (l : List α) : Moves a l (down a l) := by
  fun_induction down a l with
  | case1 y l => exact Moves.refl _ _
  | case2 x l hx => exact moves_swap' a x l
  | case3 x y l hx hy ih => exact ih.cons x
  | case4 l => exact Moves.refl a l

theorem toTop_moves (a : α) (l : List α) : Moves a l (toTop a l) := by
  unfold toTop
  split
  · rename_i ha
    refine ⟨?_, ?_⟩
    · exact (List.perm_append_singleton a _).trans (List.perm_cons_erase ha).symm
    · rw [others_append, others_erase]
      simp [others]
  · exact Moves.refl a l

theorem toBottom_moves (a : α) (l : List α) : Moves a l (toBottom a l) := by
  unfold toBottom
  split
  · rename_i ha
    refine ⟨(List.perm_cons_erase ha).symm, ?_⟩
    rw [others_cons_self, others_erase]
  · exact Moves.refl a l

/-! ## Where the element stands -/

/-- The list around the first `a`. -/
theorem split_first {a : α} {l : List α} (h : a ∈ l) :
    ∃ xs ys, l = xs ++ a :: ys ∧ a ∉ xs ∧ xs.length = l.idxOf a := by
  induction l with
  | nil => simp at h
  | cons x l ih =>
    by_cases hx : x = a
    · exact ⟨[], l, by simp [hx], by simp, by simp [hx]⟩
    · have hl : a ∈ l := by
        rcases List.mem_cons.mp h with h | h
        · exact absurd h.symm hx
        · exact h
      obtain ⟨xs, ys, hsplit, hnot, hlen⟩ := ih hl
      refine ⟨x :: xs, ys, by rw [hsplit]; rfl, ?_, ?_⟩
      · simp only [List.mem_cons, not_or]
        exact ⟨fun h => hx h.symm, hnot⟩
      · rw [List.idxOf_cons_ne _ hx, List.length_cons, hlen]

theorem erase_split {a : α} {xs : List α} (ys : List α) (h : a ∉ xs) :
    (xs ++ a :: ys).erase a = xs ++ ys := by
  rw [List.erase_append_right _ h, List.erase_cons_head]

theorem down_absent {a : α} {l : List α} (h : a ∉ l) : down a l = l := by
  fun_induction down a l with
  | case1 y l => rfl
  | case2 x l hx => simp at h
  | case3 x y l hx hy ih => rw [ih (fun hm => h (List.mem_cons_of_mem x hm))]
  | case4 l => rfl

theorem down_first (a : α) (ys : List α) : down a (a :: ys) = a :: ys := by
  cases ys with
  | nil => rfl
  | cons y ys => simp [down]

theorem down_split {a : α} {xs : List α} (x : α) (ys : List α) (h : a ∉ xs ++ [x]) :
    down a (xs ++ x :: a :: ys) = xs ++ a :: x :: ys := by
  induction xs with
  | nil =>
    have hx : x ≠ a := fun hx => h (by simp [hx])
    simp [down, hx]
  | cons w ws ih =>
    have hw : w ≠ a := fun hw => h (by simp [hw])
    have ih := ih (fun hm => h (List.mem_cons_of_mem w hm))
    cases ws with
    | nil =>
      have hx : x ≠ a := fun hx => h (by simp [hx])
      simp only [List.nil_append] at ih
      simp [down, hw, hx]
    | cons v vs =>
      have hv : v ≠ a := fun hv => h (by simp [hv])
      simp only [List.cons_append] at ih ⊢
      simp [down, hw, hv, ih]

theorem up_absent {a : α} {l : List α} (h : a ∉ l) : up a l = l := by
  fun_induction up a l with
  | case1 y l => simp at h
  | case2 x y l hx ih => rw [ih (fun hm => h (List.mem_cons_of_mem x hm))]
  | case3 l => rfl

/-- What stands before the element stays. -/
theorem up_append {a : α} {xs : List α} (ys : List α) (h : a ∉ xs) :
    up a (xs ++ a :: ys) = xs ++ up a (a :: ys) := by
  induction xs with
  | nil => rfl
  | cons w ws ih =>
    have hw : w ≠ a := fun hw => h (by simp [hw])
    have ih := ih (fun hm => h (List.mem_cons_of_mem w hm))
    cases ws with
    | nil => simp [up, hw]
    | cons v vs =>
      simp only [List.cons_append] at ih ⊢
      simp [up, hw, ih]

theorem up_last {a : α} {xs : List α} (h : a ∉ xs) : up a (xs ++ [a]) = xs ++ [a] :=
  up_append [] h

theorem up_split {a : α} {xs : List α} (y : α) (ys : List α) (h : a ∉ xs) :
    up a (xs ++ a :: y :: ys) = xs ++ y :: a :: ys := by
  rw [up_append (y :: ys) h, up, if_pos rfl]

theorem toTop_split {a : α} {xs : List α} (ys : List α) (h : a ∉ xs) :
    toTop a (xs ++ a :: ys) = xs ++ ys ++ [a] := by
  unfold toTop
  rw [if_pos (by simp), erase_split ys h]

theorem toBottom_split {a : α} {xs : List α} (ys : List α) (h : a ∉ xs) :
    toBottom a (xs ++ a :: ys) = a :: (xs ++ ys) := by
  unfold toBottom
  rw [if_pos (by simp), erase_split ys h]

/-! ## Moves, step by step -/

/-- From one list to another one by the same move, again and again. -/
def Repeats (move : List α → List α) : List α → List α → Prop :=
  Relation.ReflTransGen fun l l' => l' = move l

theorem repeats_up {a : α} {xs ys : List α} (hxs : a ∉ xs) (hys : a ∉ ys) :
    Repeats (up a) (xs ++ a :: ys) (xs ++ ys ++ [a]) := by
  induction ys generalizing xs with
  | nil =>
    rw [List.append_nil]
    exact .refl
  | cons y ys ih =>
    have hy : a ∉ xs ++ [y] := by
      simp only [List.mem_append, List.mem_singleton, not_or]
      exact ⟨hxs, fun h => hys (by simp [h])⟩
    have hrest := ih hy fun h => hys (List.mem_cons_of_mem y h)
    simp only [List.append_assoc, List.singleton_append] at hrest ⊢
    exact .head (up_split y ys hxs).symm hrest

theorem repeats_down {a : α} {xs : List α} (ys : List α) (hxs : a ∉ xs) :
    Repeats (down a) (xs ++ a :: ys) (a :: (xs ++ ys)) := by
  induction xs using List.reverseRecOn generalizing ys with
  | nil => exact .refl
  | append_singleton xs x ih =>
    have hrest := ih (x :: ys) fun h => hxs (List.mem_append_left _ h)
    rw [List.append_assoc, List.singleton_append, List.append_assoc, List.singleton_append]
    exact .head (down_split x ys hxs).symm hrest

/-- The way to the top is the step up, repeated until it changes nothing. -/
theorem toTop_repeats_up {l : List α} (a : α) (hn : l.Nodup) :
    Repeats (up a) l (toTop a l) ∧ up a (toTop a l) = toTop a l := by
  by_cases ha : a ∈ l
  · obtain ⟨xs, ys, rfl, hxs, -⟩ := split_first ha
    have hys : a ∉ ys := (List.nodup_cons.mp (List.nodup_append.mp hn).2.1).1
    rw [toTop_split ys hxs]
    refine ⟨repeats_up hxs hys, up_last ?_⟩
    simp only [List.mem_append, not_or]
    exact ⟨hxs, hys⟩
  · have hsame : toTop a l = l := if_neg ha
    rw [hsame]
    exact ⟨.refl, up_absent ha⟩

/-- The way to the bottom is the step down, repeated until it changes nothing. -/
theorem toBottom_repeats_down (a : α) (l : List α) :
    Repeats (down a) l (toBottom a l) ∧ down a (toBottom a l) = toBottom a l := by
  by_cases ha : a ∈ l
  · obtain ⟨xs, ys, rfl, hxs, -⟩ := split_first ha
    rw [toBottom_split ys hxs]
    exact ⟨repeats_down ys hxs, down_first a _⟩
  · have hsame : toBottom a l = l := if_neg ha
    rw [hsame]
    exact ⟨.refl, down_absent ha⟩

/-- A step down takes a step up back. -/
theorem down_up {a : α} {l : List α} (hn : l.Nodup) (ha : a ∈ l) (hlast : l.getLast? ≠ some a) :
    down a (up a l) = l := by
  obtain ⟨xs, ys, rfl, hxs, -⟩ := split_first ha
  cases ys with
  | nil => exact absurd (by simp) hlast
  | cons y ys =>
    have hy : a ≠ y := by
      rintro rfl
      exact (List.nodup_cons.mp (List.nodup_append.mp hn).2.1).1 List.mem_cons_self
    rw [up_split y ys hxs, down_split y ys]
    simp only [List.mem_append, List.mem_singleton, not_or]
    exact ⟨hxs, hy⟩

end list_moves
