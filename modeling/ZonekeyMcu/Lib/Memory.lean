-- Objects that are made with `new` and end with `delete`. The memory counts the
-- pointers that it gave out, and keeps those that were deleted, so that a use
-- after the delete and a second delete can be seen.
import Mathlib.Data.List.Nodup
import Mathlib.Data.List.Perm.Basic
import Mathlib.Tactic.Common

namespace memory

structure Memory where
  next : Nat
  deleted : List Nat

def Memory.new : Memory := { next := 0, deleted := [] }

/-- The pointer of a new object. -/
def Memory.alloc (m : Memory) : Nat × Memory := (m.next, { m with next := m.next + 1 })

section

variable {ε α : Type}

/-- The delete of the object at `p`, or the error for a second delete. -/
def Memory.delete (m : Memory) (doubleDelete : ε) (p : Nat) : Except ε Memory :=
  if p ∈ m.deleted then .error doubleDelete else .ok { m with deleted := p :: m.deleted }

def Memory.delete_all (doubleDelete : ε) : List Nat → Memory → Except ε Memory
  | [], m => .ok m
  | p :: ps, m => match m.delete doubleDelete p with
    | .error e => .error e
    | .ok m => Memory.delete_all doubleDelete ps m

/-- A walk over a list of objects until `test` holds. Each object that the walk
comes to is used. -/
def Memory.find (m : Memory) (useAfterDelete : ε) (ptr : α → Nat) (test : α → Bool) :
    List α → Except ε (Option α)
  | [] => .ok none
  | x :: xs =>
    if ptr x ∈ m.deleted then .error useAfterDelete
    else if test x then .ok (some x)
    else m.find useAfterDelete ptr test xs

/-- Each pointer that was given out is either owned once or deleted once. -/
def Accounts (m : Memory) (owned : Nat → Nat) : Prop :=
  ∀ p, owned p + m.deleted.count p = if p < m.next then 1 else 0

theorem accounts_new : Accounts Memory.new fun _ => 0 := by
  intro p
  simp [Memory.new]

section

variable {m : Memory} {owned : Nat → Nat}

theorem Accounts.congr (h : Accounts m owned) {owned' : Nat → Nat}
    (heq : ∀ p, owned' p = owned p) : Accounts m owned' := by
  intro p
  rw [heq p]
  exact h p

theorem Accounts.alive (h : Accounts m owned) {p : Nat} (hp : 0 < owned p) : p ∉ m.deleted := by
  intro hm
  have hcount := List.count_pos_iff.mpr hm
  have := h p
  split at this <;> omega

theorem Accounts.le_one (h : Accounts m owned) (p : Nat) : owned p ≤ 1 := by
  have := h p
  split at this <;> omega

/-- A new object has a pointer that nobody owns yet. -/
theorem Accounts.fresh (h : Accounts m owned) : owned m.next = 0 := by
  have := h m.next
  rw [if_neg (Nat.lt_irrefl _)] at this
  omega

theorem Accounts.lt_next (h : Accounts m owned) {p : Nat} (hp : 0 < owned p) : p < m.next := by
  have := h p
  split at this
  · assumption
  · omega

theorem Accounts.not_deleted (h : Accounts m owned) : m.next ∉ m.deleted := by
  intro hm
  have hcount := List.count_pos_iff.mpr hm
  have := h m.next
  rw [if_neg (Nat.lt_irrefl _)] at this
  omega

theorem Accounts.alloc (h : Accounts m owned) :
    Accounts m.alloc.2 fun p => owned p + if p = m.next then 1 else 0 := by
  intro p
  have := h p
  change owned p + (if p = m.next then 1 else 0) + m.deleted.count p =
    if p < m.next + 1 then 1 else 0
  by_cases hp : p = m.next
  · subst hp
    rw [if_neg (Nat.lt_irrefl _)] at this
    rw [if_pos rfl, if_pos (Nat.lt_succ_self _)]
    omega
  · rw [if_neg hp]
    split at this <;> split <;> omega

/-- The delete of an owned object goes well, and takes it from its owner. -/
theorem Accounts.delete (h : Accounts m owned) (doubleDelete : ε) {p : Nat} (hp : 0 < owned p) :
    m.delete doubleDelete p = .ok { m with deleted := p :: m.deleted } ∧
      Accounts { m with deleted := p :: m.deleted } fun q => owned q - if q = p then 1 else 0 := by
  refine ⟨?_, ?_⟩
  · unfold Memory.delete
    rw [if_neg (h.alive hp)]
  · intro q
    have := h q
    rw [List.count_cons]
    by_cases hq : q = p
    · subst hq
      simp only [BEq.rfl, if_true]
      omega
    · have hpq : (p == q) = false := by
        rw [beq_eq_false_iff_ne]
        exact fun hpq => hq hpq.symm
      simp only [hpq, Bool.false_eq_true, if_false, hq]
      omega

/-- The deletes of owned objects, each once. -/
theorem Accounts.delete_all (h : Accounts m owned) (doubleDelete : ε) {ps : List Nat}
    (hps : ∀ p, ps.count p ≤ owned p) :
    ∃ m', Memory.delete_all doubleDelete ps m = .ok m' ∧ m'.next = m.next ∧
      (∀ p, p ∈ m'.deleted ↔ p ∈ ps ∨ p ∈ m.deleted) ∧
      Accounts m' fun p => owned p - ps.count p := by
  induction ps generalizing m owned with
  | nil => exact ⟨m, rfl, rfl, fun p => by simp, h.congr fun p => by simp⟩
  | cons p ps ih =>
    have hp : 0 < owned p := by
      have := hps p
      rw [List.count_cons_self] at this
      omega
    obtain ⟨hdel, hacc⟩ := h.delete doubleDelete hp
    have hcount : ∀ q, (p :: ps).count q = ps.count q + if q = p then 1 else 0 := by
      intro q
      rw [List.count_cons]
      by_cases hq : q = p
      · simp [hq]
      · have hpq : (p == q) = false := by
          rw [beq_eq_false_iff_ne]
          exact fun hpq => hq hpq.symm
        simp [hq, hpq]
    obtain ⟨m', hok, hnext, hmem, hacc'⟩ := ih hacc (by
      intro q
      have := hps q
      rw [hcount] at this
      omega)
    refine ⟨m', ?_, hnext, ?_, hacc'.congr ?_⟩
    · simp only [Memory.delete_all, hdel, hok]
    · intro q
      rw [hmem q]
      simp only [List.mem_cons]
      tauto
    · intro q
      rw [hcount]
      omega

/-- Nobody owns an object: each was deleted, exactly once. -/
theorem Accounts.all_deleted (h : Accounts m fun _ => 0) :
    m.deleted.Perm (List.range m.next) := by
  rw [List.perm_iff_count]
  intro p
  have := h p
  rw [Nat.zero_add] at this
  rw [this, List.nodup_range.count]
  simp only [List.mem_range]

end

/-- Distinct objects that all live can be deleted one after another. -/
theorem delete_all_distinct (doubleDelete : ε) {m : Memory} {ps : List Nat} (hps : ps.Nodup)
    (hlive : ∀ p ∈ ps, p ∉ m.deleted) : ∃ m', Memory.delete_all doubleDelete ps m = .ok m' := by
  induction ps generalizing m with
  | nil => exact ⟨m, rfl⟩
  | cons p ps ih =>
    obtain ⟨hp, hps⟩ := List.nodup_cons.mp hps
    obtain ⟨hlivep, hlive⟩ := List.forall_mem_cons.mp hlive
    have hdel : m.delete doubleDelete p = .ok { m with deleted := p :: m.deleted } :=
      if_neg hlivep
    have hrest : ∀ q ∈ ps, q ∉ p :: m.deleted := by
      intro q hq hmem
      rcases List.mem_cons.mp hmem with rfl | hmem
      · exact hp hq
      · exact hlive q hq hmem
    obtain ⟨m', hok⟩ := ih (m := { m with deleted := p :: m.deleted }) hps hrest
    exact ⟨m', by simp only [Memory.delete_all, hdel, hok]⟩

/-- A walk over objects that all live is a search of the list. -/
theorem find_alive {m : Memory} (useAfterDelete : ε) (ptr : α → Nat) (test : α → Bool)
    {xs : List α} (h : ∀ x ∈ xs, ptr x ∉ m.deleted) :
    m.find useAfterDelete ptr test xs = .ok (xs.find? test) := by
  induction xs with
  | nil => rfl
  | cons x xs ih =>
    unfold Memory.find
    rw [if_neg (h x List.mem_cons_self), List.find?_cons]
    cases htest : test x with
    | true => rfl
    | false =>
      simp only [Bool.false_eq_true, if_false]
      exact ih fun y hy => h y (List.mem_cons_of_mem x hy)

/-- A walk that comes to a deleted object first. -/
theorem find_deleted {m : Memory} (useAfterDelete : ε) (ptr : α → Nat) (test : α → Bool)
    {x : α} (xs : List α) (h : ptr x ∈ m.deleted) :
    m.find useAfterDelete ptr test (x :: xs) = .error useAfterDelete := by
  unfold Memory.find
  rw [if_pos h]

end

end memory
