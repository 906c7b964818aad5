-- Doubly linked rings with a sentinel. A new node goes in front of another one, and a node goes
-- out, by four writes each. The rules say which list the ring is afterwards.
import Mathlib.Data.List.Nodup
import Mathlib.Logic.Function.Basic
import Mathlib.Tactic.Common

namespace linked_rings

/-- The two links of each node. A node outside of every ring has none. -/
structure Links (ν : Type) where
  next : ν → Option ν
  prev : ν → Option ν

/-! ## The writes -/

section

variable {ν : Type} [DecidableEq ν]

/-- The ring of the sentinel alone. -/
def alone (s : ν) : Links ν where
  next := Function.update (fun _ => none) s (some s)
  prev := Function.update (fun _ => none) s (some s)

def Links.link_before (l : Links ν) (e m : ν) : Option (Links ν) := do
  let p ← l.prev e
  some {
    next := Function.update (Function.update l.next p (some m)) m (some e)
    prev := Function.update (Function.update l.prev m (some p)) e (some m) }

def Links.unlink (l : Links ν) (m : ν) : Option (Links ν) := do
  let p ← l.prev m
  let e ← l.next m
  some {
    next := Function.update (Function.update l.next p (some e)) m none
    prev := Function.update (Function.update l.prev e (some p)) m none }

end

/-! ## Rings -/

section

variable {ν : Type}

/-- The way from `a` over `ms` to `b`, linked in both directions. -/
def Seg (l : Links ν) : ν → List ν → ν → Prop
  | a, [], b => l.next a = some b ∧ l.prev b = some a
  | a, m :: ms, b => l.next a = some m ∧ l.prev m = some a ∧ Seg l m ms b

structure Ring (l : Links ν) (s : ν) (ms : List ν) : Prop where
  seg : Seg l s ms s
  nodup : (s :: ms).Nodup

/-- `m` came in between `p` and `e`. -/
structure Inserted (l l' : Links ν) (p m e : ν) : Prop where
  next_p : l'.next p = some m
  prev_m : l'.prev m = some p
  next_m : l'.next m = some e
  prev_e : l'.prev e = some m
  next_else : ∀ x, x ≠ p → x ≠ m → l'.next x = l.next x
  prev_else : ∀ x, x ≠ e → x ≠ m → l'.prev x = l.prev x

/-- `m` went out from between `p` and `e`. -/
structure Removed (l l' : Links ν) (p m e : ν) : Prop where
  next_p : l'.next p = some e
  prev_e : l'.prev e = some p
  next_else : ∀ x, x ≠ p → x ≠ m → l'.next x = l.next x
  prev_else : ∀ x, x ≠ e → x ≠ m → l'.prev x = l.prev x

variable {l l' : Links ν} {a b e m p s : ν} {ms xs ys : List ν}

theorem Seg.frame (h : Seg l a ms b) (hnext : ∀ x ∈ a :: ms, l'.next x = l.next x)
    (hprev : ∀ x ∈ ms ++ [b], l'.prev x = l.prev x) : Seg l' a ms b := by
  induction ms generalizing a with
  | nil => exact ⟨(hnext a List.mem_cons_self).trans h.1, (hprev b List.mem_cons_self).trans h.2⟩
  | cons m ms ih =>
    obtain ⟨hnextm, hprevm, hrest⟩ := h
    exact ⟨(hnext a List.mem_cons_self).trans hnextm, (hprev m List.mem_cons_self).trans hprevm,
      ih hrest (fun x hx => hnext x (List.mem_cons_of_mem a hx))
        fun x hx => hprev x (List.mem_cons_of_mem m hx)⟩

/-- The node in front of a place, and the node at it. -/
theorem Seg.next_first (h : Seg l a ms b) : l.next a = some (ms.headD b) := by
  cases ms with
  | nil => exact h.1
  | cons m ms => exact h.1

theorem Seg.prev_place (h : Seg l a (xs ++ ys) b) : l.prev (ys.headD b) = some (xs.getLastD a) := by
  induction xs generalizing a with
  | nil =>
    cases ys with
    | nil => exact h.2
    | cons e ys => exact h.2.1
  | cons x xs ih =>
    rw [List.getLastD_cons]
    exact ih h.2.2

theorem Seg.next_place (h : Seg l a (xs ++ ys) b) : l.next (xs.getLastD a) = some (ys.headD b) := by
  induction xs generalizing a with
  | nil => exact h.next_first
  | cons x xs ih =>
    rw [List.getLastD_cons]
    exact ih h.2.2

theorem getLastD_mem (a : ν) (xs ys : List ν) : xs.getLastD a ∈ a :: (xs ++ ys) := by
  induction xs generalizing a with
  | nil => exact List.mem_cons_self
  | cons x xs ih =>
    rw [List.getLastD_cons]
    exact List.mem_cons_of_mem a (ih x)

theorem headD_mem (ys : List ν) (b : ν) : ys.headD b = b ∨ ys.headD b ∈ ys := by
  cases ys with
  | nil => exact .inl rfl
  | cons e ys => exact .inr List.mem_cons_self

theorem Seg.insert (h : Seg l a (xs ++ ys) b)
    (hi : Inserted l l' (xs.getLastD a) m (ys.headD b)) (hnodup : (a :: (xs ++ ys)).Nodup)
    (hb : b ∉ xs ++ ys) (hm : m ∉ a :: (xs ++ ys)) (hmb : m ≠ b) :
    Seg l' a (xs ++ m :: ys) b := by
  induction xs generalizing a with
  | nil =>
    refine ⟨hi.next_p, hi.prev_m, ?_⟩
    cases ys with
    | nil => exact ⟨hi.next_m, hi.prev_e⟩
    | cons e ys =>
      obtain ⟨hae, hey⟩ := List.nodup_cons.mp hnodup
      have hi : Inserted l l' a m e := hi
      refine ⟨hi.next_m, hi.prev_e, Seg.frame h.2.2 (fun x hx => ?_) fun x hx => ?_⟩
      · refine hi.next_else x (fun heq => hae (heq ▸ hx)) fun heq => hm ?_
        exact heq ▸ List.mem_cons_of_mem a hx
      · rcases List.mem_append.mp hx with hx | hx
        · refine hi.prev_else x (fun heq => (List.nodup_cons.mp hey).1 (heq ▸ hx)) fun heq => hm ?_
          exact heq ▸ List.mem_cons_of_mem a (List.mem_cons_of_mem e hx)
        · rw [List.mem_singleton.mp hx]
          exact hi.prev_else b (fun heq => hb (heq ▸ List.mem_cons_self)) hmb.symm
  | cons x xs ih =>
    obtain ⟨hnext, hprev, hrest⟩ := h
    obtain ⟨hax, hxs⟩ := List.nodup_cons.mp hnodup
    rw [List.getLastD_cons] at hi
    refine ⟨?_, ?_, ih hrest hi hxs (fun hmem => hb (List.mem_cons_of_mem x hmem))
      fun hmem => hm (List.mem_cons_of_mem a hmem)⟩
    · refine (hi.next_else a (fun heq => hax ?_) fun heq => hm (heq ▸ List.mem_cons_self)).trans hnext
      have hlast := getLastD_mem x xs ys
      rwa [← heq] at hlast
    · refine (hi.prev_else x (fun heq => ?_) fun heq => ?_).trans hprev
      · have hplace := headD_mem ys b
        rw [← heq] at hplace
        rcases hplace with rfl | hx
        · exact hb List.mem_cons_self
        · exact (List.nodup_cons.mp hxs).1 (List.mem_append_right xs hx)
      · exact hm (heq ▸ List.mem_cons_of_mem a List.mem_cons_self)

theorem Seg.remove (h : Seg l a (xs ++ m :: ys) b)
    (hr : Removed l l' (xs.getLastD a) m (ys.headD b)) (hnodup : (a :: (xs ++ m :: ys)).Nodup)
    (hb : b ∉ xs ++ m :: ys) : Seg l' a (xs ++ ys) b := by
  induction xs generalizing a with
  | nil =>
    obtain ⟨ham, hmy⟩ := List.nodup_cons.mp hnodup
    have hmys := (List.nodup_cons.mp hmy).1
    cases ys with
    | nil => exact ⟨hr.next_p, hr.prev_e⟩
    | cons e ys =>
      have hey := (List.nodup_cons.mp (List.nodup_cons.mp hmy).2).1
      have hr : Removed l l' a m e := hr
      refine ⟨hr.next_p, hr.prev_e, Seg.frame h.2.2.2.2 (fun x hx => ?_) fun x hx => ?_⟩
      · exact hr.next_else x (fun heq => ham (heq ▸ List.mem_cons_of_mem m hx))
          fun heq => hmys (heq ▸ hx)
      · rcases List.mem_append.mp hx with hx | hx
        · exact hr.prev_else x (fun heq => hey (heq ▸ hx))
            fun heq => hmys (heq ▸ List.mem_cons_of_mem e hx)
        · rw [List.mem_singleton.mp hx]
          exact hr.prev_else b (fun heq => hb (heq ▸ List.mem_cons_of_mem m List.mem_cons_self))
            fun heq => hb (heq ▸ List.mem_cons_self)
  | cons x xs ih =>
    obtain ⟨hnext, hprev, hrest⟩ := h
    obtain ⟨hax, hxs⟩ := List.nodup_cons.mp hnodup
    rw [List.getLastD_cons] at hr
    have hm : m ∈ xs ++ m :: ys := List.mem_append_right xs List.mem_cons_self
    refine ⟨?_, ?_, ih hrest hr hxs fun hmem => hb (List.mem_cons_of_mem x hmem)⟩
    · refine (hr.next_else a (fun heq => hax ?_) fun heq => hax ?_).trans hnext
      · have hlast := getLastD_mem x xs (m :: ys)
        rwa [← heq] at hlast
      · rw [heq]
        exact List.mem_cons_of_mem x hm
    · refine (hr.prev_else x (fun heq => ?_) fun heq => ?_).trans hprev
      · have hplace := headD_mem ys b
        rw [← heq] at hplace
        rcases hplace with rfl | hx
        · exact hb List.mem_cons_self
        · exact (List.nodup_cons.mp hxs).1 (List.mem_append_right xs (List.mem_cons_of_mem m hx))
      · exact (List.nodup_cons.mp hxs).1 (heq ▸ hm)

end

/-! ## What the writes do to a ring -/

section

variable {ν : Type} [DecidableEq ν] {l l' : Links ν} {e m p s : ν} {xs ys : List ν}

theorem ring_alone (s : ν) : Ring (alone s) s [] :=
  ⟨⟨by simp [alone], by simp [alone]⟩, List.nodup_singleton s⟩

theorem link_before_inserts (h : l.prev e = some p) (hp : p ≠ m) (he : e ≠ m) :
    ∃ l', l.link_before e m = some l' ∧ Inserted l l' p m e := by
  refine ⟨_, by unfold Links.link_before; rw [h]; rfl, ⟨?_, ?_, ?_, ?_, fun x hxp hxm => ?_,
    fun x hxe hxm => ?_⟩⟩
  · simp [hp]
  · simp [he.symm]
  · simp
  · simp
  · simp [hxp, hxm]
  · simp [hxe, hxm]

theorem unlink_removes (hprev : l.prev m = some p) (hnext : l.next m = some e) (hp : p ≠ m)
    (he : e ≠ m) : ∃ l', l.unlink m = some l' ∧ Removed l l' p m e := by
  refine ⟨_, by unfold Links.unlink; rw [hprev, hnext]; rfl, ⟨?_, ?_, fun x hxp hxm => ?_,
    fun x hxe hxm => ?_⟩⟩
  · simp [hp]
  · simp [he]
  · simp [hxp, hxm]
  · simp [hxe, hxm]

/-- A link in front of the place after `xs`. -/
theorem Ring.link_before (h : Ring l s (xs ++ ys)) (hm : m ∉ s :: (xs ++ ys)) :
    ∃ l', l.link_before (ys.headD s) m = some l' ∧ Ring l' s (xs ++ m :: ys) := by
  obtain ⟨hs, hxy⟩ := List.nodup_cons.mp h.nodup
  have hms : m ≠ s := fun heq => hm (heq ▸ List.mem_cons_self)
  have hp : xs.getLastD s ≠ m := fun heq => hm (heq ▸ getLastD_mem s xs ys)
  have he : ys.headD s ≠ m := by
    intro heq
    rcases heq ▸ headD_mem ys s with hmem | hmem
    · exact hms hmem
    · exact hm (List.mem_cons_of_mem s (List.mem_append_right xs hmem))
  obtain ⟨l', hlink, hi⟩ := link_before_inserts h.seg.prev_place hp he
  refine ⟨l', hlink, h.seg.insert hi h.nodup hs hm hms, ?_⟩
  refine List.nodup_cons.mpr ⟨fun hmem => ?_, ?_⟩
  · rcases List.mem_append.mp hmem with hmem | hmem
    · exact hs (List.mem_append_left ys hmem)
    · rcases List.mem_cons.mp hmem with heq | hmem
      · exact hms heq.symm
      · exact hs (List.mem_append_right xs hmem)
  · rw [List.perm_middle.nodup_iff]
    exact List.nodup_cons.mpr ⟨fun hmem => hm (List.mem_cons_of_mem s hmem), hxy⟩

theorem Ring.unlink (h : Ring l s (xs ++ m :: ys)) :
    ∃ l', l.unlink m = some l' ∧ Ring l' s (xs ++ ys) := by
  obtain ⟨hs, hxy⟩ := List.nodup_cons.mp h.nodup
  have hmxy := (List.nodup_cons.mp (List.perm_middle.nodup_iff.mp hxy))
  have hms : m ≠ s := fun heq => hs (heq ▸ List.mem_append_right xs List.mem_cons_self)
  have hp : xs.getLastD s ≠ m := by
    intro heq
    rcases List.mem_cons.mp (heq ▸ getLastD_mem s xs ys) with hmem | hmem
    · exact hms hmem
    · exact hmxy.1 hmem
  have he : ys.headD s ≠ m := by
    intro heq
    rcases heq ▸ headD_mem ys s with hmem | hmem
    · exact hms hmem
    · exact hmxy.1 (List.mem_append_right xs hmem)
  have hnext : l.next m = some (ys.headD s) := by
    have hsplit := h.seg
    rw [List.append_cons] at hsplit
    simpa using hsplit.next_place
  obtain ⟨l', hunlink, hr⟩ := unlink_removes h.seg.prev_place hnext hp he
  refine ⟨l', hunlink, h.seg.remove hr h.nodup hs, List.nodup_cons.mpr ⟨fun hmem => hs ?_, hmxy.2⟩⟩
  rcases List.mem_append.mp hmem with hmem | hmem
  · exact List.mem_append_left _ hmem
  · exact List.mem_append_right xs (List.mem_cons_of_mem m hmem)

end

end linked_rings
