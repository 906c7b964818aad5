-- Singly linked lists in a memory of nodes, with a tail pointer: the place that the
-- next new node is linked at. A place is the head of the list or the `next` field of a
-- node, so it goes away with its node.
import ZonekeyMcu.Lib.ListMoves
import Mathlib.Data.List.Nodup
import Mathlib.Data.List.Perm.Subperm
import Mathlib.Logic.Function.Basic
import Mathlib.Tactic.Common

namespace tail_list

/-- What holds a pointer to a node. -/
inductive Place
  | head
  | next (p : Nat)
  deriving DecidableEq, Repr

structure Node (α : Type) where
  data : α
  next : Option Nat

/-- `nodes` are the live nodes by their address. All addresses that were ever given out
are below `fresh`. -/
structure TailList (α : Type) where
  nodes : Nat → Option (Node α)
  fresh : Nat
  head : Option Nat
  tail : Place

variable {α ε : Type}

def TailList.empty : TailList α :=
  { nodes := fun _ => none, fresh := 0, head := none, tail := .head }

/-! ## Reads and writes -/

/-- The node at `p`, or the error for a node that was freed. -/
def TailList.node (l : TailList α) (freed : ε) (p : Nat) : Except ε (Node α) :=
  match l.nodes p with
  | none => .error freed
  | some n => .ok n

/-- The pointer in a place. -/
def TailList.load (l : TailList α) (freed : ε) : Place → Except ε (Option Nat)
  | .head => .ok l.head
  | .next p => (l.node freed p).map Node.next

def TailList.store (l : TailList α) (freed : ε) (q : Option Nat) : Place → Except ε (TailList α)
  | .head => .ok { l with head := q }
  | .next p => (l.node freed p).map fun n =>
    { l with nodes := Function.update l.nodes p (some { n with next := q }) }

/-- A new node, not linked yet. -/
def TailList.alloc (l : TailList α) (a : α) : Nat × TailList α :=
  (l.fresh, { l with
    nodes := Function.update l.nodes l.fresh (some { data := a, next := none })
    fresh := l.fresh + 1 })

def TailList.free (l : TailList α) (p : Nat) : TailList α :=
  { l with nodes := Function.update l.nodes p none }

/-- A new node at the tail, whose `next` is the new tail. -/
def TailList.append (l : TailList α) (freed : ε) (a : α) : Except ε (TailList α) :=
  let (p, l') := l.alloc a
  (l'.store freed (some p) l.tail).map fun l' => { l' with tail := .next p }

/-- The walk `while (*current != NULL && !stop(*current)) current = &(*current)->next`. The
result is the last place and what it holds. Each turn takes one from `fuel`. -/
def TailList.seek (l : TailList α) (freed endless : ε) (stop : Nat → Except ε Bool) :
    Nat → Place → Except ε (Place × Option Nat)
  | 0, _ => .error endless
  | fuel + 1, place => match l.load freed place with
    | .error e => .error e
    | .ok none => .ok (place, none)
    | .ok (some p) => match stop p with
      | .error e => .error e
      | .ok true => .ok (place, some p)
      | .ok false => l.seek freed endless stop fuel (.next p)

/-- The walk over the whole list. -/
def TailList.walk (l : TailList α) (freed endless : ε) :
    Nat → Option Nat → Except ε (List (Nat × α))
  | 0, _ => .error endless
  | _ + 1, none => .ok []
  | fuel + 1, some p => match l.nodes p with
    | none => .error freed
    | some n => (l.walk freed endless fuel n.next).map ((p, n.data) :: ·)

/-- A list without a cycle has at most as many nodes as addresses were given out. -/
def TailList.contents (l : TailList α) (freed endless : ε) : Except ε (List (Nat × α)) :=
  l.walk freed endless (l.fresh + 1) l.head

def TailList.seek_head (l : TailList α) (freed endless : ε) (stop : Nat → Except ε Bool) :
    Except ε (Place × Option Nat) :=
  l.seek freed endless stop (l.fresh + 1) .head

/-- `*place = p->next; free(p)`. -/
def TailList.unlink (l : TailList α) (freed : ε) (place : Place) (p : Nat) :
    Except ε (TailList α) :=
  match l.nodes p with
  | none => .error freed
  | some n => (l.store freed n.next place).map (·.free p)

/-! ## What a list holds -/

/-- From the pointer, the nodes `xs` follow one another up to a null pointer. -/
inductive Chain (nodes : Nat → Option (Node α)) : Option Nat → List (Nat × α) → Prop
  | nil : Chain nodes none []
  | cons {p : Nat} {n : Node α} {xs : List (Nat × α)} (hn : nodes p = some n)
      (hxs : Chain nodes n.next xs) : Chain nodes (some p) ((p, n.data) :: xs)

/-- The place behind the nodes `xs`. -/
def lastPlace (xs : List (Nat × α)) : Place :=
  match xs.getLast? with
  | none => .head
  | some x => .next x.1

/-- The list holds the nodes `xs`, and its tail is behind the last one. -/
structure Holds (l : TailList α) (xs : List (Nat × α)) : Prop where
  chain : Chain l.nodes l.head xs
  nodup : (xs.map Prod.fst).Nodup
  below : ∀ x ∈ xs, x.1 < l.fresh
  tail : l.tail = lastPlace xs

section

variable {l : TailList α} {xs : List (Nat × α)}

theorem holds_empty : Holds (TailList.empty : TailList α) [] :=
  ⟨.nil, List.nodup_nil, by simp, rfl⟩

@[simp] theorem lastPlace_nil : lastPlace ([] : List (Nat × α)) = .head := rfl

@[simp] theorem lastPlace_append (xs : List (Nat × α)) (x : Nat × α) :
    lastPlace (xs ++ [x]) = .next x.1 := by
  simp [lastPlace]

/-- A chain depends on its own nodes only. -/
theorem Chain.congr {nodes nodes' : Nat → Option (Node α)} {q : Option Nat}
    (h : Chain nodes q xs) (heq : ∀ x ∈ xs, nodes' x.1 = nodes x.1) : Chain nodes' q xs := by
  induction h with
  | nil => exact .nil
  | @cons p n rest hn _ ih =>
    have hp : nodes' p = some n := by
      rw [heq _ List.mem_cons_self]
      exact hn
    exact .cons hp (ih fun x hx => heq x (List.mem_cons_of_mem _ hx))

/-- A chain that goes past some nodes comes to the next one with a live pointer. -/
theorem Chain.split {nodes : Nat → Option (Node α)} {q : Option Nat} {before after : List (Nat × α)}
    {x : Nat × α} (h : Chain nodes q (before ++ x :: after)) :
    ∃ n, nodes x.1 = some n ∧ n.data = x.2 ∧ Chain nodes n.next after := by
  induction before generalizing q with
  | nil =>
    cases h with
    | cons hn hxs => exact ⟨_, hn, rfl, hxs⟩
  | cons y before ih =>
    cases h with
    | cons hn hxs => exact ih hxs

/-- What a place behind some nodes of the chain holds is the start of the rest. -/
theorem Chain.load (freed : ε) {before after : List (Nat × α)}
    (h : Chain l.nodes l.head (before ++ after)) :
    ∃ q, l.load freed (lastPlace before) = .ok q ∧ Chain l.nodes q after := by
  rcases List.eq_nil_or_concat' before with rfl | ⟨before, x, rfl⟩
  · exact ⟨l.head, rfl, h⟩
  · rw [List.append_assoc, List.singleton_append] at h
    obtain ⟨n, hn, -, hrest⟩ := h.split
    refine ⟨n.next, ?_, hrest⟩
    rw [lastPlace_append]
    simp [TailList.load, TailList.node, hn, Except.map]

theorem Chain.walk_eq (freed endless : ε) {q : Option Nat} (h : Chain l.nodes q xs) {fuel : Nat}
    (hfuel : xs.length < fuel) : l.walk freed endless fuel q = .ok xs := by
  induction h generalizing fuel with
  | nil =>
    obtain ⟨fuel, rfl⟩ := Nat.exists_eq_succ_of_ne_zero (by omega : fuel ≠ 0)
    rfl
  | @cons p n rest hn _ ih =>
    obtain ⟨fuel, rfl⟩ := Nat.exists_eq_succ_of_ne_zero (by omega : fuel ≠ 0)
    have hrest : l.walk freed endless fuel n.next = .ok rest :=
      ih (Nat.lt_of_succ_lt_succ hfuel)
    simp only [TailList.walk, hn, hrest, Except.map]

/-- A walk does not get past a node that was freed where it was linked. -/
theorem Chain.walk_freed (freed endless : ε) {p : Option Nat} {x : Nat × α}
    {before after : List (Nat × α)} (h : Chain l.nodes p (before ++ x :: after))
    (hbefore : ∀ y ∈ before, y.1 ≠ x.1) (fuel : Nat) (ys : List (Nat × α)) :
    (l.free x.1).walk freed endless fuel p ≠ .ok ys := by
  induction before generalizing p fuel ys with
  | nil =>
    cases h with
    | cons hn hrest =>
      cases fuel with
      | zero => exact fun h => by cases h
      | succ fuel => simp [TailList.walk, TailList.free]
  | cons y before ih =>
    cases h with
    | @cons q n _ hn hrest =>
      cases fuel with
      | zero => exact fun h => by cases h
      | succ fuel =>
        have hq : q ≠ x.1 := hbefore _ List.mem_cons_self
        have hnode : (l.free x.1).nodes q = some n := by simp [TailList.free, hq, hn]
        have hwalk := ih hrest (fun z hz => hbefore z (List.mem_cons_of_mem _ hz)) fuel
        simp only [TailList.walk, hnode]
        cases hr : (l.free x.1).walk freed endless fuel n.next with
        | error e => exact fun h => by cases h
        | ok zs => exact absurd hr (hwalk zs)

theorem Holds.length_le (h : Holds l xs) : xs.length ≤ l.fresh := by
  have hsub : (xs.map Prod.fst) ⊆ List.range l.fresh := by
    intro p hp
    obtain ⟨x, hx, rfl⟩ := List.mem_map.mp hp
    exact List.mem_range.mpr (h.below x hx)
  have := (h.nodup.subperm hsub).length_le
  simpa using this

/-- The walk over the list ends and gives its nodes. -/
theorem Holds.contents_eq (h : Holds l xs) (freed endless : ε) :
    l.contents freed endless = .ok xs :=
  h.chain.walk_eq freed endless (Nat.lt_succ_of_le h.length_le)

/-! ## The operations keep it -/

theorem Chain.seek_eq (freed endless : ε) {stop : Nat → Except ε Bool} {test : Nat × α → Bool}
    {before after : List (Nat × α)} (h : Chain l.nodes l.head (before ++ after))
    (hstop : ∀ x ∈ after, stop x.1 = .ok (test x)) {fuel : Nat} (hfuel : after.length < fuel) :
    l.seek freed endless stop fuel (lastPlace before) =
      .ok (lastPlace (before ++ after.takeWhile (!test ·)), (after.find? test).map Prod.fst) := by
  induction after generalizing before fuel with
  | nil =>
    obtain ⟨fuel, rfl⟩ := Nat.exists_eq_succ_of_ne_zero (by omega : fuel ≠ 0)
    obtain ⟨q, hload, hq⟩ := h.load freed
    cases hq
    simp [TailList.seek, hload]
  | cons x after ih =>
    obtain ⟨fuel, rfl⟩ := Nat.exists_eq_succ_of_ne_zero (by omega : fuel ≠ 0)
    obtain ⟨q, hload, hq⟩ := h.load freed
    cases hq with
    | @cons p n _ hn hxs =>
      have hx := hstop _ List.mem_cons_self
      dsimp only at hx
      cases htest : test (p, n.data) with
      | true => simp [TailList.seek, hload, hx, htest]
      | false =>
        have hchain : Chain l.nodes l.head ((before ++ [(p, n.data)]) ++ after) := by
          rwa [List.append_assoc]
        have hrest := ih hchain (fun y hy => hstop y (List.mem_cons_of_mem _ hy))
          (Nat.lt_of_succ_lt_succ hfuel)
        rw [lastPlace_append] at hrest
        simp [TailList.seek, hload, hx, htest, hrest]

/-- The search stops at the first node that passes the test. -/
theorem Holds.seek_eq (h : Holds l xs) (freed endless : ε) {stop : Nat → Except ε Bool}
    {test : Nat × α → Bool} (hstop : ∀ x ∈ xs, stop x.1 = .ok (test x)) :
    l.seek_head freed endless stop =
      .ok (lastPlace (xs.takeWhile (!test ·)), (xs.find? test).map Prod.fst) :=
  Chain.seek_eq freed endless (show Chain l.nodes l.head ([] ++ xs) from h.chain) hstop
    (Nat.lt_succ_of_le h.length_le)

/-- A write to the `next` of a node puts other nodes behind it. -/
theorem Chain.relink {nodes : Nat → Option (Node α)} {p q : Option Nat} {n : Node α} {x : Nat × α}
    {before rest after : List (Nat × α)} (h : Chain nodes p (before ++ x :: rest))
    (hn : nodes x.1 = some n) (hafter : Chain nodes q after)
    (hbefore : ∀ y ∈ before, y.1 ≠ x.1) (hrest : ∀ y ∈ after, y.1 ≠ x.1) :
    Chain (Function.update nodes x.1 (some { n with next := q })) p (before ++ x :: after) := by
  induction before generalizing p with
  | nil =>
    cases h with
    | @cons p n' _ hn' _ =>
      rw [hn'] at hn
      cases hn
      refine Chain.cons (n := { n with next := q }) (Function.update_self ..) ?_
      exact hafter.congr fun y hy => Function.update_of_ne (hrest y hy) _ _
  | cons y before ih =>
    cases h with
    | cons hy hxs =>
      refine .cons ?_ (ih hxs fun z hz => hbefore z (List.mem_cons_of_mem _ hz))
      rw [Function.update_of_ne (hbefore _ List.mem_cons_self)]
      exact hy

/-- A write of the pointer behind some nodes of the chain. -/
theorem Chain.store (freed : ε) {before rest after : List (Nat × α)} {q : Option Nat}
    (h : Chain l.nodes l.head (before ++ rest)) (hafter : Chain l.nodes q after)
    (hnodup : ((before ++ after).map Prod.fst).Nodup) :
    ∃ l', l.store freed q (lastPlace before) = .ok l' ∧ l'.tail = l.tail ∧ l'.fresh = l.fresh ∧
      Chain l'.nodes l'.head (before ++ after) := by
  rcases List.eq_nil_or_concat' before with rfl | ⟨before, x, rfl⟩
  · exact ⟨{ l with head := q }, rfl, rfl, rfl, hafter⟩
  · simp only [List.append_assoc, List.singleton_append] at h hnodup ⊢
    obtain ⟨n, hn, -, -⟩ := h.split
    rw [List.map_append, List.map_cons, List.nodup_append, List.nodup_cons] at hnodup
    obtain ⟨-, ⟨hx, -⟩, hdisj⟩ := hnodup
    refine ⟨{ l with nodes := Function.update l.nodes x.1 (some { n with next := q }) }, ?_, rfl,
      rfl, h.relink hn hafter (fun y hy => ?_) fun y hy heq => ?_⟩
    · rw [lastPlace_append]
      simp [TailList.store, TailList.node, hn, Except.map]
    · exact hdisj _ (List.mem_map_of_mem hy) _ List.mem_cons_self
    · exact hx (heq ▸ List.mem_map_of_mem hy)

/-- An addition is linked behind the last node. -/
theorem Holds.append (h : Holds l xs) (freed : ε) (a : α) :
    ∃ l', l.append freed a = .ok l' ∧ Holds l' (xs ++ [(l.fresh, a)]) := by
  have hne : ∀ x ∈ xs, x.1 ≠ l.fresh := fun x hx => Nat.ne_of_lt (h.below x hx)
  have hnodup : ((xs ++ [(l.fresh, a)]).map Prod.fst).Nodup := by
    rw [List.map_append]
    refine list_moves.nodup_append_one h.nodup fun hm => ?_
    obtain ⟨x, hx, heq⟩ := List.mem_map.mp hm
    exact hne x hx heq
  have hchain : Chain (l.alloc a).2.nodes (l.alloc a).2.head (xs ++ []) := by
    rw [List.append_nil]
    exact h.chain.congr fun x hx => Function.update_of_ne (hne x hx) _ _
  have hnew : Chain (l.alloc a).2.nodes (some l.fresh) [(l.fresh, a)] :=
    .cons (n := { data := a, next := none }) (Function.update_self ..) .nil
  obtain ⟨l', hstore, -, hfresh, hl'⟩ := hchain.store freed hnew hnodup
  refine ⟨{ l' with tail := .next l.fresh }, ?_, hl', hnodup, ?_, ?_⟩
  · unfold TailList.append
    rw [h.tail]
    exact congrArg (Except.map _) hstore
  · intro x hx
    change x.1 < l'.fresh
    rw [hfresh]
    rcases List.mem_append.mp hx with hx | hx
    · exact Nat.lt_succ_of_lt (h.below x hx)
    · rw [List.mem_singleton.mp hx]
      exact Nat.lt_succ_self l.fresh
  · exact (lastPlace_append xs (l.fresh, a)).symm

/-- An unlink takes its node out. The tail stays where it was. -/
theorem Holds.unlink {before after : List (Nat × α)} {x : Nat × α}
    (h : Holds l (before ++ x :: after)) (freed : ε) :
    ∃ l', l.unlink freed (lastPlace before) x.1 = .ok l' ∧ l'.tail = l.tail ∧
      l'.fresh = l.fresh ∧ Chain l'.nodes l'.head (before ++ after) := by
  obtain ⟨n, hn, -, hafter⟩ := h.chain.split
  have hsub : ((before ++ after).map Prod.fst).Sublist ((before ++ x :: after).map Prod.fst) :=
    ((List.sublist_cons_self x after).append_left before).map Prod.fst
  obtain ⟨l', hstore, htail, hfresh, hl'⟩ := h.chain.store freed hafter (h.nodup.sublist hsub)
  refine ⟨l'.free x.1, ?_, htail, hfresh, ?_⟩
  · simp [TailList.unlink, hn, hstore, Except.map]
  · have hne : ∀ y ∈ before ++ after, y.1 ≠ x.1 := by
      have hnodup := h.nodup
      rw [List.map_append, List.map_cons] at hnodup
      have hx := (List.nodup_middle.mp hnodup)
      rw [List.nodup_cons, ← List.map_append] at hx
      exact fun y hy heq => hx.1 (heq ▸ List.mem_map_of_mem hy)
    exact hl'.congr fun y hy => Function.update_of_ne (hne y hy) _ _

/-- An unlink of a node that is not the last one. -/
theorem Holds.unlink_inner {before after : List (Nat × α)} {x : Nat × α}
    (h : Holds l (before ++ x :: after)) (hafter : after ≠ []) (freed : ε) :
    ∃ l', l.unlink freed (lastPlace before) x.1 = .ok l' ∧ Holds l' (before ++ after) := by
  obtain ⟨l', hok, htail, hfresh, hchain⟩ := h.unlink freed
  have hsub : (before ++ after).Sublist (before ++ x :: after) :=
    (List.sublist_cons_self x after).append_left before
  refine ⟨l', hok, hchain, h.nodup.sublist (hsub.map Prod.fst), ?_, ?_⟩
  · intro y hy
    rw [hfresh]
    exact h.below y (hsub.subset hy)
  · obtain ⟨after, y, rfl⟩ := (List.eq_nil_or_concat' after).resolve_left hafter
    rw [htail, h.tail, ← List.append_assoc, lastPlace_append, ← List.cons_append,
      ← List.append_assoc, lastPlace_append]

end

end tail_list
