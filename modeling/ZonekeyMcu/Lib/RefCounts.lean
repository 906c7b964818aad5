-- Objects with a count of the references to them, and a list that keeps one reference to
-- each of its objects and finds them by a key. An object ends with its last reference.
import ZonekeyMcu.Lib.Memory
import ZonekeyMcu.Lib.Returns

open memory returns

namespace ref_counts

/-! ## Counted objects -/

/-- `object` and `ref` are what the memory of an address holds. -/
structure Heap (α : Type) where
  mem : Memory
  ref : Nat → Nat
  object : Nat → α

/-- The value at one address. -/
def put {β : Type} (f : Nat → β) (p : Nat) (x : β) : Nat → β := fun q => if q = p then x else f q

section

variable {ε α : Type}

def Heap.empty (x : α) : Heap α := { mem := .new, ref := fun _ => 0, object := fun _ => x }

def Heap.Alive (h : Heap α) (p : Nat) : Prop := p < h.mem.next ∧ p ∉ h.mem.deleted

instance (h : Heap α) (p : Nat) : Decidable (h.Alive p) := inferInstanceAs (Decidable (_ ∧ _))

/-- A new object starts with one reference. -/
def Heap.make (h : Heap α) (x : α) : Heap α where
  mem := h.mem.alloc.2
  ref := put h.ref h.mem.next 1
  object := put h.object h.mem.next x

def Heap.get (h : Heap α) (useAfterDelete : ε) (p : Nat) : Except ε α :=
  if h.Alive p then .ok (h.object p) else .error useAfterDelete

/-- New fields for the object at `p`. -/
def Heap.set (h : Heap α) (p : Nat) (x : α) : Heap α := { h with object := put h.object p x }

def Heap.addref (h : Heap α) (useAfterDelete : ε) (p : Nat) : Except ε (Heap α) :=
  if h.Alive p then .ok { h with ref := put h.ref p (h.ref p + 1) } else .error useAfterDelete

def Heap.release (h : Heap α) (useAfterDelete : ε) (p : Nat) : Except ε (Heap α) :=
  if h.Alive p then
    .ok { h with
      ref := put h.ref p (h.ref p - 1)
      mem := if h.ref p - 1 = 0 then { h.mem with deleted := p :: h.mem.deleted } else h.mem }
  else .error useAfterDelete

/-! ## What the counts say -/

/-- Each object has as many references as `refs` says. One that has none was deleted, once. -/
structure Counts (h : Heap α) (refs : Nat → Nat) : Prop where
  accounts : Accounts h.mem fun p => if refs p = 0 then 0 else 1
  ref_eq : ∀ p, 0 < refs p → h.ref p = refs p

variable {h h' : Heap α} {refs refs' : Nat → Nat} {p q : Nat}

@[simp] theorem put_self {β : Type} (f : Nat → β) (x : β) : put f p x p = x := by simp [put]

theorem put_ne {β : Type} (f : Nat → β) (x : β) (hne : q ≠ p) : put f p x q = f q := by
  simp [put, hne]

theorem counts_empty (x : α) : Counts (Heap.empty x) fun _ => 0 :=
  ⟨accounts_new, fun _ hp => absurd hp (Nat.lt_irrefl 0)⟩

theorem Counts.congr (hc : Counts h refs) (heq : ∀ p, refs' p = refs p) : Counts h refs' := by
  rwa [show refs' = refs from funext heq]

theorem Counts.alive_iff (hc : Counts h refs) : h.Alive p ↔ 0 < refs p := by
  have hp : (if refs p = 0 then 0 else 1) + h.mem.deleted.count p =
      if p < h.mem.next then 1 else 0 := hc.accounts p
  have hcount : p ∈ h.mem.deleted ↔ 0 < h.mem.deleted.count p := List.count_pos_iff.symm
  unfold Heap.Alive
  rw [hcount]
  by_cases href : refs p = 0
  · rw [if_pos href] at hp
    split at hp <;> omega
  · rw [if_neg href] at hp
    split at hp <;> omega

theorem Counts.alive (hc : Counts h refs) (hp : 0 < refs p) : h.Alive p := hc.alive_iff.mpr hp

theorem Counts.fresh (hc : Counts h refs) : refs h.mem.next = 0 := by
  have hn : ¬ h.Alive h.mem.next := fun halive => Nat.lt_irrefl _ halive.1
  rw [hc.alive_iff] at hn
  omega

theorem Counts.set (hc : Counts h refs) (p : Nat) (x : α) : Counts (h.set p x) refs :=
  ⟨hc.accounts, hc.ref_eq⟩

theorem Counts.make (hc : Counts h refs) (x : α) :
    Counts (h.make x) fun p => refs p + if p = h.mem.next then 1 else 0 := by
  refine ⟨hc.accounts.alloc.congr fun p => ?_, fun p hp => ?_⟩
  · by_cases hpn : p = h.mem.next
    · subst hpn
      simp [hc.fresh]
    · simp [hpn]
  · by_cases hpn : p = h.mem.next
    · subst hpn
      simp [Heap.make, hc.fresh]
    · simp only [Heap.make, put_ne _ _ hpn, hpn, if_false, Nat.add_zero] at hp ⊢
      exact hc.ref_eq p hp

theorem Counts.addref (hc : Counts h refs) (e : ε) (hp : 0 < refs p) :
    ∃ h', h.addref e p = .ok h' ∧ h'.mem = h.mem ∧ h'.object = h.object ∧
      Counts h' fun q => refs q + if q = p then 1 else 0 := by
  refine ⟨_, if_pos (hc.alive hp), rfl, rfl, hc.accounts.congr fun q => ?_, fun q hq => ?_⟩
  · by_cases hqp : q = p
    · subst hqp
      simp [Nat.pos_iff_ne_zero.mp hp]
    · simp [hqp]
  · by_cases hqp : q = p
    · subst hqp
      simp [hc.ref_eq q hp]
    · simp only [put_ne _ _ hqp, hqp, if_false, Nat.add_zero] at hq ⊢
      exact hc.ref_eq q hq

theorem Counts.release (hc : Counts h refs) (e : ε) (hp : 0 < refs p) :
    ∃ h', h.release e p = .ok h' ∧ h'.object = h.object ∧ (∀ q, h'.Alive q → h.Alive q) ∧
      Counts h' fun q => refs q - if q = p then 1 else 0 := by
  have href := hc.ref_eq p hp
  have hne : refs p ≠ 0 := Nat.pos_iff_ne_zero.mp hp
  refine ⟨_, if_pos (hc.alive hp), rfl, fun q hq => ?_, ?_, fun q hq => ?_⟩
  · simp only [Heap.Alive] at hq ⊢
    split at hq
    · exact ⟨hq.1, fun hm => hq.2 (List.mem_cons_of_mem p hm)⟩
    · exact hq
  · simp only [href]
    split
    · rename_i hlast
      have hdel := (hc.accounts.delete e (p := p) (by simp [hne])).2
      refine hdel.congr fun q => ?_
      by_cases hqp : q = p
      · subst hqp
        simp [hlast, hne]
      · simp [hqp]
    · rename_i hmore
      refine hc.accounts.congr fun q => ?_
      by_cases hqp : q = p
      · subst hqp
        simp [hmore, hne]
      · simp [hqp]
  · by_cases hqp : q = p
    · subst hqp
      simp [href]
    · simp only [put_ne _ _ hqp, hqp, if_false, Nat.sub_zero] at hq ⊢
      exact hc.ref_eq q hq

/-- A release takes one reference from its object, whichever that is. -/
theorem Counts.release_takes (hc : Counts h refs) {e : ε} (hrel : h.release e q = .ok h')
    (hc' : Counts h' refs') : refs' q + 1 = refs q := by
  have halive : h.Alive q := by
    by_contra hdead
    simp [Heap.release, hdead] at hrel
  have hpos := hc.alive_iff.mp halive
  obtain ⟨h'', heq, -, -, hcounts⟩ := hc.release e hpos
  rw [heq] at hrel
  cases hrel
  have h1 := hc'.ref_eq q
  have h2 := hcounts.ref_eq q
  have h3 := hc'.alive_iff (p := q)
  have h4 := hcounts.alive_iff (p := q)
  simp only [if_true] at h2 h4
  rw [h3] at h4
  omega

end

/-! ## A list that finds its objects by a key -/

/-- The list keeps one reference to each item. -/
structure Registry (α : Type) where
  heap : Heap α
  items : List Nat

section

variable {ε α κ : Type}

def Registry.empty (x : α) : Registry α := { heap := .empty x, items := [] }

/-- A new object, at the end of the list. -/
def Registry.push (r : Registry α) (x : α) : Registry α :=
  { heap := r.heap.make x, items := r.items ++ [r.heap.mem.next] }

/-- The walk looks into each object until one has the key. -/
def Registry.search [DecidableEq κ] (r : Registry α) (useAfterDelete : ε) (key : α → κ)
    (id : κ) : Except ε (Option Nat) :=
  r.heap.mem.find useAfterDelete (fun p => p) (fun p => decide (key (r.heap.object p) = id))
    r.items

/-- The node goes out of the list first. Then the object is released, by the pointer that a
read of the erased node gives. That may be anything. -/
def Registry.remove [DecidableEq κ] (r : Registry α) (useAfterDelete : ε) (key : α → κ) (id : κ)
    (stale : Option Nat) : Except ε (Registry α) :=
  match r.search useAfterDelete key id with
  | .error e => .error e
  | .ok none => .ok r
  | .ok (some p) => match stale with
    | none => .error useAfterDelete
    | some q => (r.heap.release useAfterDelete q).map fun heap =>
        { heap := heap, items := r.items.erase p }

def Registry.keys (r : Registry α) (useAfterDelete : ε) (key : α → κ) : Except ε (List κ) :=
  r.items.mapM fun p => (r.heap.get useAfterDelete p).map key

/-- The list holds the live objects under distinct keys. Each object has one reference from
the list, if it is there, and one for each that is held. -/
structure Registered (key : α → κ) (r : Registry α) (held : List Nat) (live : List (κ × Nat)) :
    Prop where
  ids : (live.map Prod.fst).Nodup
  items : live = r.items.map fun p => (key (r.heap.object p), p)
  counts : Counts r.heap fun p => r.items.count p + held.count p

variable {key : α → κ} {r r' : Registry α} {held : List Nat} {live : List (κ × Nat)} {id : κ}
  {p : Nat} {stale : Option Nat} {e : ε} {x : α}

theorem count_append_one (ps : List Nat) (p q : Nat) :
    (ps ++ [p]).count q = ps.count q + if q = p then 1 else 0 := by
  by_cases hqp : q = p
  · subst hqp
    simp
  · simp [hqp, Ne.symm hqp]

theorem registered_empty (key : α → κ) (x : α) : Registered key (.empty x) [] [] :=
  ⟨List.nodup_nil, rfl, (counts_empty x).congr fun _ => rfl⟩

theorem Registered.mem_items (h : Registered key r held live) :
    p ∈ r.items ↔ (key (r.heap.object p), p) ∈ live := by
  rw [h.items, List.mem_map]
  constructor
  · exact fun hp => ⟨p, hp, rfl⟩
  · rintro ⟨q, hq, heq⟩
    rwa [← (Prod.mk.inj heq).2]

theorem Registered.listed (h : Registered key r held live) (hp : (id, p) ∈ live) :
    p ∈ r.items ∧ key (r.heap.object p) = id := by
  rw [h.items, List.mem_map] at hp
  obtain ⟨q, hq, heq⟩ := hp
  obtain ⟨hkey, rfl⟩ := Prod.mk.inj heq
  exact ⟨hq, hkey⟩

theorem Registered.alive_item (h : Registered key r held live) (hp : p ∈ r.items) :
    r.heap.Alive p :=
  h.counts.alive (Nat.add_pos_left (List.count_pos_iff.mpr hp) _)

theorem Registered.alive_held (h : Registered key r held live) (hp : p ∈ held) :
    r.heap.Alive p :=
  h.counts.alive (Nat.add_pos_right _ (List.count_pos_iff.mpr hp))

theorem Registered.fresh (h : Registered key r held live) :
    r.heap.mem.next ∉ r.items ∧ r.heap.mem.next ∉ held := by
  have hf := h.counts.fresh
  rw [Nat.add_eq_zero_iff, List.count_eq_zero, List.count_eq_zero] at hf
  exact hf

/-- No live object is at the next pointer. -/
theorem Registered.old (h : Registered key r held live) :
    ∀ x ∈ live, ¬ x.2 = r.heap.mem.next := by
  rintro ⟨id, p⟩ hx heq
  have hp := (h.listed hx).1
  exact h.fresh.1 (heq ▸ hp)

theorem Registered.keys_eq (h : Registered key r held live) (e : ε) :
    r.keys e key = .ok (live.map Prod.fst) := by
  have hall : ∀ ps : List Nat, (∀ p ∈ ps, r.heap.Alive p) →
      ps.mapM (fun p => (r.heap.get e p).map key) =
        .ok (ps.map fun p => key (r.heap.object p)) := by
    intro ps hps
    induction ps with
    | nil => rfl
    | cons p ps ih =>
      have hget : r.heap.get e p = .ok (r.heap.object p) := if_pos (hps p List.mem_cons_self)
      rw [List.mapM_cons, hget, ih fun q hq => hps q (List.mem_cons_of_mem p hq)]
      rfl
  rw [Registry.keys, hall r.items fun _ hp => h.alive_item hp, h.items, List.map_map]
  rfl

/-- The place of an item. No other item has its key. -/
theorem Registered.split (h : Registered key r held live) (hp : (id, p) ∈ live) :
    ∃ before after, r.items = before ++ p :: after ∧ key (r.heap.object p) = id ∧
      ∀ q ∈ before ++ after, key (r.heap.object q) ≠ id := by
  obtain ⟨hmem, hkey⟩ := h.listed hp
  obtain ⟨before, after, heq⟩ := List.append_of_mem hmem
  have hnodup := h.ids
  rw [h.items, List.map_map, heq, List.map_append, List.map_cons, List.nodup_middle,
    List.nodup_cons, ← List.map_append] at hnodup
  refine ⟨before, after, heq, hkey, fun q hq hqid => hnodup.1 ?_⟩
  exact List.mem_map.mpr ⟨q, hq, hqid.trans hkey.symm⟩

theorem Registered.set (h : Registered key r held live) (hkey : key x = key (r.heap.object p)) :
    Registered key { r with heap := r.heap.set p x } held live := by
  refine ⟨h.ids, h.items.trans (List.map_congr_left fun q _ => ?_), h.counts.set p x⟩
  by_cases hqp : q = p
  · subst hqp
    simp [Heap.set, hkey]
  · simp [Heap.set, put_ne _ _ hqp]

/-- A new object with a key that is not in use. -/
theorem Registered.push (h : Registered key r held live) (hnew : key x ∉ live.map Prod.fst) :
    Registered key (r.push x) held (live ++ [(key x, r.heap.mem.next)]) := by
  refine ⟨?_, ?_, (h.counts.make x).congr fun q => ?_⟩
  · rw [List.map_append, List.map_singleton, List.nodup_append]
    refine ⟨h.ids, List.nodup_singleton _, fun a ha b hb => ?_⟩
    rintro rfl
    rw [List.mem_singleton.mp hb] at ha
    exact hnew ha
  · simp only [Registry.push, List.map_append, List.map_singleton, Heap.make, put_self]
    rw [h.items]
    congr 1
    refine List.map_congr_left fun q hq => ?_
    rw [put_ne]
    exact fun heq => h.fresh.1 (heq ▸ hq)
  · simp only [Registry.push, count_append_one]
    omega

theorem Registered.new_key {a : Nat} (h : Registered key r held (live ++ [(id, a)])) :
    id ∉ live.map Prod.fst := by
  have hids := h.ids
  rw [List.map_append, List.map_singleton, List.nodup_append] at hids
  exact fun hmem => hids.2.2 id hmem id (List.mem_singleton_self id) rfl

/-- One more reference to an object that has one. -/
theorem Registered.hold (h : Registered key r held live) (hp : p ∈ r.items) (e : ε) :
    ∃ heap, r.heap.addref e p = .ok heap ∧ heap.object = r.heap.object ∧
      (∀ q, heap.Alive q → r.heap.Alive q) ∧
      Registered key { r with heap := heap } (held ++ [p]) live := by
  obtain ⟨heap, hok, hmem, hobj, hcounts⟩ :=
    h.counts.addref e (Nat.add_pos_left (List.count_pos_iff.mpr hp) (held.count p))
  have halive : ∀ q, heap.Alive q → r.heap.Alive q := fun q hq => by rwa [Heap.Alive, ← hmem]
  refine ⟨heap, hok, hobj, halive, h.ids, by rw [h.items, hobj], hcounts.congr fun q => ?_⟩
  simp only [count_append_one]
  omega

/-- A reference that was held goes. -/
theorem Registered.drop (h : Registered key r held live) (hp : p ∈ held) (e : ε) :
    ∃ heap, r.heap.release e p = .ok heap ∧ heap.object = r.heap.object ∧
      (∀ q, heap.Alive q → r.heap.Alive q) ∧
      Registered key { r with heap := heap } (held.erase p) live := by
  have hpos : 0 < held.count p := List.count_pos_iff.mpr hp
  obtain ⟨heap, hok, hobj, halive, hcounts⟩ :=
    h.counts.release e (Nat.add_pos_right (r.items.count p) hpos)
  refine ⟨heap, hok, hobj, halive, h.ids, by rw [h.items, hobj], hcounts.congr fun q => ?_⟩
  by_cases hqp : q = p
  · subst hqp
    simp only [List.count_erase_self, if_true]
    omega
  · rw [List.count_erase_of_ne hqp, if_neg hqp, Nat.sub_zero]

variable [DecidableEq κ]

theorem Registered.search_eq (h : Registered key r held live) (e : ε) (id : κ) :
    r.search e key id = .ok (r.items.find? fun p => decide (key (r.heap.object p) = id)) :=
  find_alive e _ _ fun _ hp => (h.alive_item hp).2

theorem Registered.find_live (h : Registered key r held live) (id : κ) :
    (live.find? fun y => decide (y.1 = id)) =
      (r.items.find? fun p => decide (key (r.heap.object p) = id)).map
        fun p => (key (r.heap.object p), p) := by
  rw [h.items, List.find?_map]
  rfl

theorem Registered.found (h : Registered key r held live) (hp : (id, p) ∈ live) (e : ε) :
    r.search e key id = .ok (some p) := by
  obtain ⟨before, after, heq, hkey, hne⟩ := h.split hp
  have hbefore : before.find? (fun p => decide (key (r.heap.object p) = id)) = none := by
    rw [List.find?_eq_none]
    exact fun q hq => by simpa using hne q (List.mem_append_left after hq)
  rw [h.search_eq, heq, List.find?_append, hbefore, List.find?_cons_of_pos (by simpa using hkey)]
  rfl

theorem Registered.not_found (h : Registered key r held live) (hid : id ∉ live.map Prod.fst)
    (e : ε) : r.search e key id = .ok none := by
  rw [h.search_eq]
  congr 1
  rw [List.find?_eq_none]
  intro p hp hkey
  rw [decide_eq_true_eq] at hkey
  exact hid (List.mem_map.mpr ⟨_, h.mem_items.mp hp, hkey⟩)

/-- The list without the item. -/
theorem Registered.erased (h : Registered key r held live) (hp : (id, p) ∈ live) :
    (live.filter fun y => decide (y.1 ≠ id)) =
      (r.items.erase p).map fun p => (key (r.heap.object p), p) := by
  obtain ⟨before, after, heq, hkey, hne⟩ := h.split hp
  have hnot : p ∉ before := fun hmem => hne p (List.mem_append_left after hmem) hkey
  have hall : ∀ y ∈ (before ++ after).map (fun p => (key (r.heap.object p), p)),
      decide (y.1 ≠ id) = true := by
    intro y hy
    obtain ⟨q, hq, rfl⟩ := List.mem_map.mp hy
    exact decide_eq_true (hne q hq)
  rw [heq, List.erase_append_right _ hnot, List.erase_cons_head, h.items, heq, List.map_append,
    List.map_cons, List.filter_append, List.filter_cons_of_neg (by simp [hkey]),
    ← List.filter_append, ← List.map_append, List.filter_eq_self.mpr hall]

theorem Registered.filter_absent (hid : id ∉ live.map Prod.fst) :
    (live.filter fun y => decide (y.1 ≠ id)) = live := by
  rw [List.filter_eq_self]
  intro y hy
  exact decide_eq_true fun heq => hid (List.mem_map.mpr ⟨y, hy, heq⟩)

/-- The removal releases the object whose pointer it reads from the erased node. -/
theorem Registered.remove_eq (h : Registered key r held live) (hp : (id, p) ∈ live) (e : ε)
    (q : Nat) : r.remove e key id (some q) =
      (r.heap.release e q).map fun heap => { heap := heap, items := r.items.erase p } := by
  simp only [Registry.remove, h.found hp]

theorem Registered.remove_lost (h : Registered key r held live) (hp : (id, p) ∈ live) (e : ε) :
    r.remove e key id none = .error e := by
  simp only [Registry.remove, h.found hp]

/-- When the erased node still has its pointer, the object with the key goes, and no other. -/
theorem Registered.remove (h : Registered key r held live) (e : ε)
    (hstale : ∀ p, (id, p) ∈ live → stale = some p) :
    ∃ r', r.remove e key id stale = .ok r' ∧ r'.heap.object = r.heap.object ∧
      (∀ q, r'.heap.Alive q → r.heap.Alive q) ∧
      Registered key r' held (live.filter fun y => decide (y.1 ≠ id)) := by
  by_cases hid : id ∈ live.map Prod.fst
  · obtain ⟨⟨_, p⟩, hp, rfl⟩ := List.mem_map.mp hid
    obtain ⟨hmem, -⟩ := h.listed hp
    have hpos : 0 < r.items.count p := List.count_pos_iff.mpr hmem
    obtain ⟨heap, hok, hobj, halive, hcounts⟩ :=
      h.counts.release e (Nat.add_pos_left hpos (held.count p))
    refine ⟨{ heap := heap, items := r.items.erase p }, ?_, hobj, halive, ?_, ?_,
      hcounts.congr fun q => ?_⟩
    · rw [hstale p hp, h.remove_eq hp, hok]
      rfl
    · exact h.ids.sublist (List.Sublist.map _ List.filter_sublist)
    · rw [h.erased hp, hobj]
    · by_cases hqp : q = p
      · subst hqp
        simp only [List.count_erase_self, if_true]
        omega
      · simp only [List.count_erase_of_ne hqp, if_neg hqp, Nat.sub_zero]
  · refine ⟨r, ?_, rfl, fun _ hq => hq, ?_⟩
    · simp only [Registry.remove, h.not_found hid]
    · rwa [Registered.filter_absent hid]

/-- A removal that goes well read the pointer that the erased node had. -/
theorem Registered.remove_reads (h : Registered key r held live) (hp : (id, p) ∈ live)
    (hrem : r.remove e key id stale = .ok r')
    (h' : Registered key r' held (live.filter fun y => decide (y.1 ≠ id))) :
    stale = some p := by
  cases stale with
  | none =>
    rw [h.remove_lost hp] at hrem
    cases hrem
  | some q =>
    rw [h.remove_eq hp] at hrem
    obtain ⟨heap, hrel, rfl⟩ := map_inv hrem
    have htakes := h.counts.release_takes hrel h'.counts
    by_contra hne
    have hqp : q ≠ p := fun heq => hne (congrArg some heq)
    simp only [List.count_erase_of_ne hqp] at htakes
    omega

end

end ref_counts
