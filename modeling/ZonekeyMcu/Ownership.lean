-- Who owns the objects of a conference. The lists of a conference own its
-- members, each pointer once. A graph belongs to one source, and graphs and
-- streams keep pointers of live sinks only.
import ZonekeyMcu.ConferenceLoop
import Mathlib.Logic.Relation

open memory zonekey_mcu.members zonekey_mcu.options zonekey_mcu.director

namespace zonekey_mcu.conference

/-! ## The invariant -/

/-- How many members have the pointer. -/
def Conference.owned (c : Conference) (p : Ptr) : Nat :=
  (c.sources_.map Source.ptr).count p + (c.sinks_.map Sink.ptr).count p +
    (c.streams_.map Stream.ptr).count p + (c.graphics_.map Graph.ptr).count p

/-- How often a graph or a stream has the pointer in its list of sinks. -/
def Conference.subscribed (c : Conference) (p : Ptr) : Nat :=
  (c.graphics_.flatMap Graph.sinks_).count p + (c.streams_.flatMap Stream.sinks_).count p

/-- What a graph keeps of its source. -/
def source_key (s : Source) : Ptr × Int := (s.ptr, s.id_)

def graph_key (g : Graph) : Ptr × Int := (g.source_, g.id_)

structure Owned (c : Conference) : Prop where
  accounts : Accounts c.mem c.owned
  graphs : c.graphics_.map graph_key = c.sources_.map source_key
  sinks : ∀ p, c.subscribed p ≤ (c.sinks_.map Sink.ptr).count p
  streams : c.type = .CT_FREE → c.streams_ = []
  publishers : ∀ s ∈ c.streams_, s.support_publisher = false → s.sinks_ = []

variable {c : Conference}

theorem new_owned (type : ConferenceType) (env : Env) (want_alpha : Nat → Int) (id : Int) :
    Owned (Conference.new type env want_alpha id) where
  accounts := accounts_new
  graphs := rfl
  sinks _ := Nat.le_refl _
  streams _ := rfl
  publishers _ hs := absurd hs List.not_mem_nil

/-! ## Members are alive -/

theorem count_map_pos {α : Type} (f : α → Nat) {x : α} {xs : List α} (h : x ∈ xs) :
    0 < (xs.map f).count (f x) :=
  List.count_pos_iff.mpr (List.mem_map_of_mem h)

theorem owned_source {s : Source} (hs : s ∈ c.sources_) : 0 < c.owned s.ptr := by
  have := count_map_pos Source.ptr hs
  unfold Conference.owned
  omega

theorem owned_sink {s : Sink} (hs : s ∈ c.sinks_) : 0 < c.owned s.ptr := by
  have := count_map_pos Sink.ptr hs
  unfold Conference.owned
  omega

theorem owned_stream {s : Stream} (hs : s ∈ c.streams_) : 0 < c.owned s.ptr := by
  have := count_map_pos Stream.ptr hs
  unfold Conference.owned
  omega

theorem owned_graph {g : Graph} (hg : g ∈ c.graphics_) : 0 < c.owned g.ptr := by
  have := count_map_pos Graph.ptr hg
  unfold Conference.owned
  omega

theorem Owned.source_alive (h : Owned c) {s : Source} (hs : s ∈ c.sources_) :
    s.ptr ∉ c.mem.deleted := h.accounts.alive (owned_source hs)

theorem Owned.sink_alive (h : Owned c) {s : Sink} (hs : s ∈ c.sinks_) :
    s.ptr ∉ c.mem.deleted := h.accounts.alive (owned_sink hs)

theorem Owned.stream_alive (h : Owned c) {s : Stream} (hs : s ∈ c.streams_) :
    s.ptr ∉ c.mem.deleted := h.accounts.alive (owned_stream hs)

theorem Owned.graph_alive (h : Owned c) {g : Graph} (hg : g ∈ c.graphics_) :
    g.ptr ∉ c.mem.deleted := h.accounts.alive (owned_graph hg)

theorem Owned.find_source (h : Owned c) (sid : Int) :
    c.find_source sid = .ok (c.sources_.find? fun s => s.source_id = sid) :=
  find_alive _ _ _ fun _ hs => h.source_alive hs

theorem Owned.find_stream (h : Owned c) (sid : Int) :
    c.find_stream sid = .ok (c.streams_.find? fun s => s.stream_id = sid) :=
  find_alive _ _ _ fun _ hs => h.stream_alive hs

theorem Owned.find_graph (h : Owned c) (id : Int) :
    c.find_graph id = .ok (c.graphics_.find? fun g => g.id_ = id) :=
  find_alive _ _ _ fun _ hg => h.graph_alive hg

theorem nodup_of_count {ps : List Ptr} (h : ∀ p, ps.count p ≤ 1) : ps.Nodup :=
  List.nodup_iff_count_le_one.mpr h

theorem Owned.sources_nodup (h : Owned c) : (c.sources_.map Source.ptr).Nodup := by
  refine nodup_of_count fun p => ?_
  have := h.accounts.le_one p
  unfold Conference.owned at this
  omega

theorem accounts_streams (h : Accounts c.mem c.owned) : (c.streams_.map Stream.ptr).Nodup := by
  refine nodup_of_count fun p => ?_
  have := h.le_one p
  unfold Conference.owned at this
  omega

theorem Owned.streams_nodup (h : Owned c) : (c.streams_.map Stream.ptr).Nodup :=
  accounts_streams h.accounts

theorem Owned.graphs_nodup (h : Owned c) : (c.graphics_.map Graph.ptr).Nodup := by
  refine nodup_of_count fun p => ?_
  have := h.accounts.le_one p
  unfold Conference.owned at this
  omega

/-- A new pointer is that of no member. -/
theorem Owned.fresh (h : Owned c) : c.owned c.mem.next = 0 := h.accounts.fresh

/-- A sink is in one list of sinks at most. -/
theorem Owned.subscribed_le_one (h : Owned c) (p : Ptr) : c.subscribed p ≤ 1 := by
  have hle := h.sinks p
  have hacc := h.accounts.le_one p
  unfold Conference.owned at hacc
  omega

/-- A new pointer is in no list of sinks. -/
theorem Owned.not_subscribed (h : Owned c) : c.subscribed c.mem.next = 0 := by
  have hle := h.sinks c.mem.next
  have hfresh := h.fresh
  unfold Conference.owned at hfresh
  omega

/-- The graph of a source, at the place of the source. -/
theorem Owned.graph_of (h : Owned c) {before after : List Source} {s : Source}
    (hs : c.sources_ = before ++ s :: after) : ∃ gb g ga, c.graphics_ = gb ++ g :: ga ∧
      gb.map graph_key = before.map source_key ∧ g.source_ = s.ptr ∧ g.id_ = s.id_ ∧
      ga.map graph_key = after.map source_key := by
  have hmap := h.graphs
  rw [hs, List.map_append, List.map_cons, List.map_eq_append_iff] at hmap
  obtain ⟨gb, rest, hg, hgb, hrest⟩ := hmap
  rw [List.map_eq_cons_iff] at hrest
  obtain ⟨g, ga, hrest, hkey, hga⟩ := hrest
  rw [hrest] at hg
  exact ⟨gb, g, ga, hg, hgb, congrArg Prod.fst hkey, congrArg Prod.snd hkey, hga⟩

/-! ## What a call that ends can do -/

/-- A graph after the delete of a sink. -/
def Graph.without (p : Ptr) (g : Graph) : Graph := { g with sinks_ := g.sinks_.erase p }

/-- One change that adds no member: an object that was made and deleted again, a
member that is taken out and deleted, a member that takes its turn, or a mark on
the conference itself. The counters of the ids stand still. -/
inductive Change (c : Conference) : Conference → Prop
  | marked (desc_ : String) (stamp_idle_ : Int) (idle_ : Bool)
      (reg_notify_tokens_ : List (String × List Token))
      (hidle : idle_ = true → c.idle_ = true ∨ c.sources_ = [] ∧ c.streams_ = []) :
      Change c { c with desc_, stamp_idle_, idle_, reg_notify_tokens_ }
  | lost : Change c { c with mem := ⟨c.mem.next + 1, c.mem.next :: c.mem.deleted⟩ }
  | source_gone {before after : List Source} {s : Source} {gb ga : List Graph} {g : Graph}
      (hs : c.sources_ = before ++ s :: after) (hg : c.graphics_ = gb ++ g :: ga)
      (hk : gb.map graph_key = before.map source_key) :
      Change c { c with
        sources_ := before ++ after
        graphics_ := gb ++ ga
        mem := ⟨c.mem.next, s.ptr :: g.ptr :: c.mem.deleted⟩ }
  | sink_gone {before after : List Sink} {s : Sink} (hs : c.sinks_ = before ++ s :: after) :
      Change c { c with
        sinks_ := before ++ after
        graphics_ := c.graphics_.map (Graph.without s.ptr)
        streams_ := c.streams_.map fun stream => (stream.del_sink s.ptr).2
        mem := ⟨c.mem.next, s.ptr :: c.mem.deleted⟩ }
  | stream_gone {before after : List Stream} {s : Stream} {rc : Int} {filters : Filters}
      (hs : c.streams_ = before ++ s :: after) (hf : c.filters.del_stream s = .ok (rc, filters)) :
      Change c { c with
        streams_ := before ++ after
        filters := filters
        mem := ⟨c.mem.next, s.ptr :: c.mem.deleted⟩ }
  | source_turn {before after : List Source} {s : Source} (env : Env)
      (hs : c.sources_ = before ++ s :: after) :
      Change c { c with sources_ := before ++ s.run env :: after }
  | sink_turn {before after : List Sink} {s : Sink} (env : Env)
      (hs : c.sinks_ = before ++ s :: after) :
      Change c { c with sinks_ := before ++ s.run env :: after }
  | stream_turn {before after : List Stream} {s : Stream} (env : Env)
      (hs : c.streams_ = before ++ s :: after) :
      Change c { c with streams_ := before ++ s.run env :: after }

/-- Any number of such changes. -/
abbrev Changes : Conference → Conference → Prop := Relation.ReflTransGen Change

/-! ## Each change keeps the invariant -/

theorem count_cons_ite (p q : Ptr) (ps : List Ptr) :
    (q :: ps).count p = ps.count p + if p = q then 1 else 0 := by
  rw [List.count_cons]
  by_cases h : p = q
  · simp [h]
  · have hne : (q == p) = false := beq_eq_false_iff_ne.mpr fun hq => h hq.symm
    simp [h, hne]

/-- An element taken out of every list, when the lists have it once at most. -/
theorem count_erase_all {α : Type} (f : α → List Ptr) {q : Ptr} {xs : List α}
    (hle : (xs.flatMap f).count q ≤ 1) (p : Ptr) :
    (xs.flatMap fun x => (f x).erase q).count p =
      (xs.flatMap f).count p - if p = q then 1 else 0 := by
  induction xs with
  | nil => simp
  | cons x xs ih =>
    simp only [List.flatMap_cons, List.count_append] at hle ⊢
    rw [ih (by omega), List.count_erase]
    by_cases hp : p = q
    · subst hp
      simp only [BEq.rfl, if_true]
      omega
    · have hne : (q == p) = false := beq_eq_false_iff_ne.mpr fun hq => hp hq.symm
      simp [hp, hne]

/-- The counts of a list with one element in the middle. -/
theorem count_middle {α : Type} (f : α → Ptr) (before after : List α) (x : α) (p : Ptr) :
    ((before ++ x :: after).map f).count p =
      ((before ++ after).map f).count p + if p = f x then 1 else 0 := by
  simp only [List.map_append, List.map_cons, List.count_append, count_cons_ite]
  omega

theorem del_sink_sinks {s : Stream} (h : s.support_publisher = false → s.sinks_ = [])
    (p : Ptr) : (s.del_sink p).2.sinks_ = s.sinks_.erase p := by
  rw [stream_del_sink_eq]
  cases hp : s.support_publisher with
  | true => rfl
  | false => rw [h hp]; rfl

theorem del_sink_ptr (s : Stream) (p : Ptr) : (s.del_sink p).2.ptr = s.ptr := by
  rw [stream_del_sink_eq]

theorem del_sink_publisher (s : Stream) (p : Ptr) :
    (s.del_sink p).2.support_publisher = s.support_publisher := by
  rw [stream_del_sink_eq]

theorem Owned.lost (h : Owned c) :
    Accounts ⟨c.mem.next + 1, c.mem.next :: c.mem.deleted⟩ c.owned := by
  have hnew := (h.accounts.alloc.delete () (p := c.mem.next) (by simp)).2
  exact hnew.congr fun p => by omega

theorem Owned.source_gone (h : Owned c) {before after : List Source} {s : Source}
    {gb ga : List Graph} {g : Graph} (hs : c.sources_ = before ++ s :: after)
    (hg : c.graphics_ = gb ++ g :: ga) (hk : gb.map graph_key = before.map source_key) :
    Owned { c with
      sources_ := before ++ after
      graphics_ := gb ++ ga
      mem := ⟨c.mem.next, s.ptr :: g.ptr :: c.mem.deleted⟩ } := by
  have howned : ∀ p, c.owned p = ((before ++ after).map Source.ptr).count p +
      (c.sinks_.map Sink.ptr).count p + (c.streams_.map Stream.ptr).count p +
      ((gb ++ ga).map Graph.ptr).count p + (if p = s.ptr then 1 else 0) +
      if p = g.ptr then 1 else 0 := by
    intro p
    unfold Conference.owned
    rw [hs, hg, count_middle, count_middle]
    omega
  have hne : s.ptr ≠ g.ptr := by
    intro heq
    have hle := h.accounts.le_one s.ptr
    rw [howned, if_pos rfl, if_pos heq] at hle
    omega
  refine ⟨?_, ?_, ?_, h.streams, h.publishers⟩
  · have hgraph := (h.accounts.delete () (p := g.ptr) (by rw [howned, if_pos rfl]; omega)).2
    have hsource := (hgraph.delete () (p := s.ptr) (by
      rw [howned, if_pos rfl, if_neg hne]
      omega)).2
    refine hsource.congr fun p => ?_
    rw [howned]
    unfold Conference.owned
    dsimp only
    omega
  · have hmap := h.graphs
    rw [hs, hg] at hmap
    simp only [List.map_append, List.map_cons, hk, List.append_cancel_left_eq,
      List.cons.injEq] at hmap ⊢
    exact hmap.2
  · intro p
    have hle := h.sinks p
    unfold Conference.subscribed at hle ⊢
    rw [hg] at hle
    simp only [List.flatMap_append, List.flatMap_cons, List.count_append] at hle ⊢
    omega

theorem Owned.sink_gone (h : Owned c) {before after : List Sink} {s : Sink}
    (hs : c.sinks_ = before ++ s :: after) :
    Owned { c with
      sinks_ := before ++ after
      graphics_ := c.graphics_.map (Graph.without s.ptr)
      streams_ := c.streams_.map fun stream => (stream.del_sink s.ptr).2
      mem := ⟨c.mem.next, s.ptr :: c.mem.deleted⟩ } := by
  have hptr : (c.streams_.map fun stream => (stream.del_sink s.ptr).2).map Stream.ptr =
      c.streams_.map Stream.ptr := by
    rw [List.map_map]
    exact List.map_congr_left fun stream _ => del_sink_ptr stream s.ptr
  have howned : ∀ p, c.owned p = (c.sources_.map Source.ptr).count p +
      ((before ++ after).map Sink.ptr).count p + (c.streams_.map Stream.ptr).count p +
      (c.graphics_.map Graph.ptr).count p + if p = s.ptr then 1 else 0 := by
    intro p
    unfold Conference.owned
    rw [hs, count_middle]
    omega
  refine ⟨?_, ?_, ?_, ?_, ?_⟩
  · have hsink := (h.accounts.delete () (p := s.ptr) (by rw [howned, if_pos rfl]; omega)).2
    refine hsink.congr fun p => ?_
    rw [howned]
    unfold Conference.owned
    dsimp only
    rw [hptr, List.map_map]
    change _ + (c.graphics_.map Graph.ptr).count p = _
    omega
  · rw [List.map_map]
    exact h.graphs
  · intro p
    have hle := h.sinks p
    have hone := h.subscribed_le_one s.ptr
    have hstreams : (c.streams_.map fun stream => (stream.del_sink s.ptr).2).flatMap
        Stream.sinks_ = c.streams_.flatMap fun stream => stream.sinks_.erase s.ptr := by
      rw [List.flatMap_map]
      exact List.flatMap_congr fun stream hm => del_sink_sinks (h.publishers stream hm) s.ptr
    unfold Conference.subscribed at hle hone ⊢
    dsimp only
    rw [hstreams, List.flatMap_map]
    change (c.graphics_.flatMap fun g => g.sinks_.erase s.ptr).count p + _ ≤ _
    rw [count_erase_all Graph.sinks_ (by omega), count_erase_all Stream.sinks_ (by omega)]
    rw [hs, count_middle] at hle
    by_cases hp : p = s.ptr
    · subst hp
      omega
    · rw [if_neg hp] at hle ⊢
      omega
  · intro hfree
    rw [h.streams hfree]
    rfl
  · intro stream hm hp
    obtain ⟨t, ht, rfl⟩ := List.mem_map.mp hm
    rw [del_sink_publisher] at hp
    rw [del_sink_sinks (h.publishers t ht), h.publishers t ht hp]
    rfl

theorem Owned.stream_gone (h : Owned c) {before after : List Stream} {s : Stream}
    (filters : Filters) (hs : c.streams_ = before ++ s :: after) :
    Owned { c with
      streams_ := before ++ after
      filters := filters
      mem := ⟨c.mem.next, s.ptr :: c.mem.deleted⟩ } := by
  have howned : ∀ p, c.owned p = (c.sources_.map Source.ptr).count p +
      (c.sinks_.map Sink.ptr).count p + ((before ++ after).map Stream.ptr).count p +
      (c.graphics_.map Graph.ptr).count p + if p = s.ptr then 1 else 0 := by
    intro p
    unfold Conference.owned
    rw [hs, count_middle]
    omega
  refine ⟨?_, h.graphs, ?_, ?_, ?_⟩
  · have hstream := (h.accounts.delete () (p := s.ptr) (by rw [howned, if_pos rfl]; omega)).2
    refine hstream.congr fun p => ?_
    rw [howned]
    unfold Conference.owned
    dsimp only
    omega
  · intro p
    have hle := h.sinks p
    unfold Conference.subscribed at hle ⊢
    rw [hs] at hle
    simp only [List.flatMap_append, List.flatMap_cons, List.count_append] at hle ⊢
    omega
  · intro hfree
    have hnil := h.streams hfree
    rw [hs] at hnil
    simp at hnil
  · intro t ht
    refine h.publishers t ?_
    rw [hs]
    simp only [List.mem_append, List.mem_cons] at ht ⊢
    tauto

theorem Owned.change {c' : Conference} (h : Owned c) (hc : Change c c') : Owned c' := by
  cases hc with
  | marked => exact ⟨h.accounts, h.graphs, h.sinks, h.streams, h.publishers⟩
  | lost => exact ⟨h.lost, h.graphs, h.sinks, h.streams, h.publishers⟩
  | source_gone hs hg hk => exact h.source_gone hs hg hk
  | sink_gone hs => exact h.sink_gone hs
  | stream_gone hs hf => exact h.stream_gone _ hs
  | source_turn env hs =>
    refine ⟨h.accounts.congr fun p => ?_, ?_, h.sinks, h.streams, h.publishers⟩
    · simp [Conference.owned, hs]
    · simp [h.graphs, hs, source_key]
  | sink_turn env hs =>
    refine ⟨h.accounts.congr fun p => ?_, h.graphs, fun p => ?_, h.streams, h.publishers⟩
    · simp [Conference.owned, hs]
    · simpa [Conference.subscribed, hs] using h.sinks p
  | stream_turn env hs =>
    refine ⟨h.accounts.congr fun p => ?_, h.graphs, fun p => ?_, fun hfree => ?_, ?_⟩
    · simp [Conference.owned, hs]
    · simpa [Conference.subscribed, hs] using h.sinks p
    · simp [h.streams hfree] at hs
    · intro t ht hp
      rcases List.mem_append.mp ht with hm | hm
      · exact h.publishers t (by simp [hs, hm]) hp
      · rcases List.mem_cons.mp hm with heq | hm
        · rw [heq] at hp ⊢
          rw [stream_run_publisher] at hp
          rw [stream_run_sinks]
          exact h.publishers _ (by simp [hs]) hp
        · exact h.publishers t (by simp [hs, hm]) hp

end zonekey_mcu.conference
