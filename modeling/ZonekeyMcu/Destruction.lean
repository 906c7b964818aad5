-- The life of the objects of a conference, to its end. While it lives each source
-- has one graph, and no list has a deleted sink. The destructor deletes the graphs
-- first, and that of a free conference keeps their pointers.
import ZonekeyMcu.ConferenceRuns

open runs memory zonekey_mcu.members zonekey_mcu.options zonekey_mcu.director

namespace zonekey_mcu.conference

variable {c : Conference}

/-! ## The loops of the destructor -/

/-- The rule for a loop of a destructor. `P rest c` holds when the loop has `rest`
before it. The loop ends, or the delete of a member fails with an error in `E`. -/
theorem delete_members_rule {α : Type} (ptr : α → Ptr)
    (del : Conference → α → Except Fault (Int × Conference)) (P : List α → Conference → Prop)
    (E : Fault → Prop)
    (hstep : ∀ x rest c, P (x :: rest) c →
      (∃ rc c1 c2, del c x = .ok (rc, c1) ∧ c1.delete (ptr x) = .ok c2 ∧ P rest c2) ∨
        ∃ e, del c x = .error e ∧ E e)
    (xs : List α) (c : Conference) (h : P xs c) :
    (∃ c', delete_members ptr del xs c = .ok c' ∧ P [] c') ∨
      ∃ e, delete_members ptr del xs c = .error e ∧ E e := by
  induction xs generalizing c with
  | nil => exact Or.inl ⟨c, rfl, h⟩
  | cons x xs ih =>
    unfold delete_members
    rcases hstep x xs c h with ⟨rc, c1, c2, hdel, hdelete, hP⟩ | ⟨e, herr, hE⟩
    · simp only [hdel, hdelete, ok_bind]
      exact ih _ hP
    · exact Or.inr ⟨e, by simp only [herr, error_bind], hE⟩

/-- A conference whose graphs are gone, and which does not know them any more. -/
structure Ending (c : Conference) : Prop where
  accounts : Accounts c.mem c.owned
  graphs : c.graphics_ = []
  streams : c.type = .CT_FREE → c.streams_ = []
  wired : Wired c.filters (c.streams_.map wire)

theorem Ending.del_sink (h : Ending c) (s : Sink) (sinks_ : List Sink) : ∃ rc,
    Conference.del_sink { c with sinks_ } s = .ok (rc, { c with
      sinks_
      streams_ := c.streams_.map fun stream => (stream.del_sink s.ptr).2 }) := by
  have hfree : Conference.free_del_sink { c with sinks_ } s = .ok (-1, { c with sinks_ }) := by
    unfold Conference.free_del_sink
    dsimp only
    rw [h.graphs]
    rfl
  exact del_sink_of_free_del hfree h.streams fun _ hs => h.accounts.alive (owned_stream hs)

theorem Ending.delete_sinks (h : Ending c) : ∃ c', c.delete_sinks = .ok c' ∧ Ending c' ∧
    c'.sinks_ = [] ∧ c'.type = c.type ∧ c'.filters = c.filters := by
  have hrule := delete_members_rule Sink.ptr Conference.del_sink
    (fun rest d => Ending { d with sinks_ := rest } ∧ d.type = c.type ∧ d.filters = c.filters)
    (fun _ => False) ?_ c.sinks_ c ⟨h, rfl, rfl⟩
  · rcases hrule with ⟨c', hok, hend, htype, hfilters⟩ | ⟨e, -, hno⟩
    · refine ⟨{ c' with sinks_ := [] }, ?_, hend, rfl, htype, hfilters⟩
      unfold Conference.delete_sinks
      simp only [hok, ok_bind, pure_eq_ok]
    · exact hno.elim
  · rintro x rest d ⟨hd, htype, hfilters⟩
    left
    obtain ⟨rc, hdel⟩ := hd.del_sink x d.sinks_
    have hx : x ∈ x :: rest := List.mem_cons_self
    have hptr : (d.streams_.map fun stream => (stream.del_sink x.ptr).2).map Stream.ptr =
        d.streams_.map Stream.ptr := by
      rw [List.map_map]
      exact List.map_congr_left fun stream _ => del_sink_ptr stream x.ptr
    have hacc := (hd.accounts.delete () (p := x.ptr) (owned_sink hx)).2
    refine ⟨rc, _, _, hdel, delete_ok (by exact hd.accounts.alive (owned_sink hx)),
      ⟨?_, hd.graphs, fun hfree => ?_, ?_⟩, htype, hfilters⟩
    · refine hacc.congr fun p => ?_
      unfold Conference.owned
      dsimp only
      rw [hptr, List.map_cons, count_cons_ite]
      omega
    · have hnil : d.streams_ = [] := hd.streams hfree
      simp [hnil]
    · have hw : Wired d.filters (d.streams_.map wire) := hd.wired
      simpa [Function.comp_def] using hw

/-- The loop over the streams fails only when the z-order array has lost its end. -/
theorem Ending.delete_streams (h : Ending c) (htype : c.type = .CT_DIRECTOR) :
    (∃ c', c.delete_streams = .ok c' ∧ Ending c' ∧ c'.streams_ = [] ∧ c'.sinks_ = c.sinks_) ∨
      c.delete_streams = .error .outOfBounds ∧ ¬ c.filters.video_mixer.has_end := by
  have hrule := delete_members_rule Stream.ptr Conference.del_stream
    (fun rest d => Ending { d with streams_ := rest } ∧ d.type = .CT_DIRECTOR ∧
      d.sinks_ = c.sinks_ ∧ (c.filters.video_mixer.has_end → d.filters.video_mixer.has_end))
    (fun e => e = .outOfBounds ∧ ¬ c.filters.video_mixer.has_end) ?_ c.streams_ c
    ⟨h, htype, rfl, id⟩
  · unfold Conference.delete_streams
    rcases hrule with ⟨c', hok, hend, -, hsinks, -⟩ | ⟨e, herr, rfl, hno⟩
    · exact Or.inl ⟨{ c' with streams_ := [] }, by simp only [hok, ok_bind, pure_eq_ok], hend, rfl,
        hsinks⟩
    · exact Or.inr ⟨by simp only [herr, error_bind], hno⟩
  · rintro x rest d ⟨hd, hdtype, hsinks, hord⟩
    have hx : x ∈ x :: rest := List.mem_cons_self
    have hsplit : { d with streams_ := x :: rest }.streams_ = [] ++ x :: rest := rfl
    rcases wired_stream_gone hd.accounts hd.wired hsplit with
      ⟨herr, hno, -⟩ | ⟨filters, hf, -, -, hkeep, hw⟩
    · right
      refine ⟨.outOfBounds, ?_, rfl, fun ho => hno (hord ho)⟩
      rw [del_stream_of_director hdtype]
      simp only [herr, error_bind]
    · left
      have hacc := (hd.accounts.delete () (p := x.ptr) (owned_stream hx)).2
      refine ⟨0, { d with filters }, _, ?_,
        delete_ok (by exact hd.accounts.alive (owned_stream hx)),
        ⟨?_, hd.graphs, fun hfree => ?_, hw⟩, hdtype, hsinks, fun ho => hkeep (hord ho)⟩
      · rw [del_stream_of_director hdtype]
        simp only [hf, ok_bind, pure_eq_ok]
      · refine hacc.congr fun p => ?_
        unfold Conference.owned
        dsimp only
        rw [List.map_cons, count_cons_ite]
        omega
      · have hno : d.type = .CT_FREE := hfree
        rw [hdtype] at hno
        cases hno

theorem Ending.delete_sources (h : Ending c) : ∃ c', c.delete_sources = .ok c' ∧ Ending c' ∧
    c'.sources_ = [] ∧ c'.sinks_ = c.sinks_ ∧ c'.streams_ = c.streams_ := by
  have hrule := delete_members_rule Source.ptr Conference.del_source
    (fun rest d => Ending { d with sources_ := rest } ∧ d.sinks_ = c.sinks_ ∧
      d.streams_ = c.streams_) (fun _ => False) ?_ c.sources_ c ⟨h, rfl, rfl⟩
  · rcases hrule with ⟨c', hok, hend, hsinks, hstreams⟩ | ⟨e, -, hno⟩
    · refine ⟨{ c' with sources_ := [] }, ?_, hend, rfl, hsinks, hstreams⟩
      unfold Conference.delete_sources
      simp only [hok, ok_bind, pure_eq_ok]
    · exact hno.elim
  · rintro x rest d ⟨hd, hsinks, hstreams⟩
    left
    have hx : x ∈ x :: rest := List.mem_cons_self
    have hgraphs : d.graphics_ = [] := hd.graphs
    have hacc := (hd.accounts.delete () (p := x.ptr) (owned_source hx)).2
    refine ⟨-1, d, _, ?_, delete_ok (by exact hd.accounts.alive (owned_source hx)),
      ⟨?_, hd.graphs, hd.streams, hd.wired⟩, hsinks, hstreams⟩
    · unfold Conference.del_source
      rw [hgraphs]
      rfl
    · refine hacc.congr fun p => ?_
      unfold Conference.owned
      dsimp only
      rw [List.map_cons, count_cons_ite]
      omega

/-- With no member left, each object that was made was deleted once. -/
theorem Ending.all_deleted (h : Ending c) (hsources : c.sources_ = []) (hsinks : c.sinks_ = [])
    (hstreams : c.streams_ = []) : c.mem.deleted.Perm (List.range c.mem.next) := by
  refine Accounts.all_deleted (h.accounts.congr fun p => ?_)
  unfold Conference.owned
  rw [hsources, hsinks, hstreams, h.graphs]
  rfl

/-! ## The destructors -/

/-- The deletes of the graphs end. Each graph of the list is deleted after them. -/
theorem Owned.delete_graphs (h : Owned c) : ∃ mem, c.delete_graphs = .ok { c with mem } ∧
    (∀ g ∈ c.graphics_, g.ptr ∈ mem.deleted) ∧
    Accounts mem fun p => c.owned p - (c.graphics_.map Graph.ptr).count p := by
  have hown : ∀ p, (c.graphics_.map Graph.ptr).count p ≤ c.owned p := fun p => by
    unfold Conference.owned
    omega
  obtain ⟨mem, hok, -, hmem, hacc⟩ := h.accounts.delete_all Fault.doubleDelete hown
  refine ⟨mem, ?_, fun g hg => (hmem _).mpr (Or.inl (List.mem_map_of_mem hg)), hacc⟩
  unfold Conference.delete_graphs
  simp only [hok, ok_bind, pure_eq_ok]

/-- The end of a conference: the destructor returns, and each object that the
conference ever made was deleted once. -/
def Conference.Ended (c : Conference) : Prop :=
  ∃ mem tokens, c.destroy = .ok (mem, tokens) ∧ mem.deleted.Perm (List.range mem.next)

/-- A director conference ends well, unless its z-order array has lost its end. -/
theorem Sound.director_destroy (h : Sound c) (htype : c.type = .CT_DIRECTOR) :
    c.Ended ∨ c.destroy = .error .outOfBounds ∧ ¬ c.filters.video_mixer.has_end := by
  obtain ⟨mem, hgraphs, -, hacc⟩ := h.owned.delete_graphs
  have hstart : Ending { c with mem, graphics_ := [] } := by
    refine ⟨hacc.congr fun p => ?_, rfl, h.owned.streams, h.wired⟩
    unfold Conference.owned
    simp
  obtain ⟨c1, h1, hend1, hsinks1, htype1, hfilters1⟩ := hstart.delete_sinks
  rcases hend1.delete_streams (htype1.trans htype) with
    ⟨c2, h2, hend2, hstreams2, hsinks2⟩ | ⟨herr, hno⟩
  · obtain ⟨c3, h3, hend3, hsources3, hsinks3, hstreams3⟩ := hend2.delete_sources
    refine Or.inl ⟨c3.mem, c3.reg_notify_tokens_.flatMap (·.2), ?_, ?_⟩
    · unfold Conference.destroy Conference.director_destructor
      rw [htype]
      simp only [hgraphs, ok_bind, h1, h2, h3, pure_eq_ok]
    · refine hend3.all_deleted hsources3 ?_ ?_
      · rw [hsinks3, hsinks2, hsinks1]
      · rw [hstreams3, hstreams2]
  · rw [hfilters1] at hno
    refine Or.inr ⟨?_, hno⟩
    unfold Conference.destroy Conference.director_destructor
    rw [htype]
    simp only [hgraphs, ok_bind, h1, herr, error_bind]

/-- A free conference with no source has no graph. -/
theorem Sound.free_ended (h : Sound c) (htype : c.type = .CT_FREE) (hnil : c.sources_ = []) :
    c.Ended := by
  have hgraphics : c.graphics_ = [] := by
    have hmap := h.owned.graphs
    rw [hnil] at hmap
    simpa using hmap
  have hstart : Ending c := ⟨h.owned.accounts, hgraphics, h.owned.streams, h.wired⟩
  have hgraphs : c.delete_graphs = .ok c := by
    have hnone : Memory.delete_all Fault.doubleDelete (c.graphics_.map Graph.ptr) c.mem =
        .ok c.mem := by
      rw [hgraphics]
      rfl
    unfold Conference.delete_graphs
    simp only [hnone, ok_bind, pure_eq_ok]
  obtain ⟨c1, h1, hend1, hsinks1, htype1, -⟩ := hstart.delete_sinks
  obtain ⟨c2, h2, hend2, hsources2, hsinks2, hstreams2⟩ := hend1.delete_sources
  refine ⟨c2.mem, c2.reg_notify_tokens_.flatMap (·.2), ?_, ?_⟩
  · unfold Conference.destroy Conference.free_destructor
    rw [htype]
    simp only [hgraphs, ok_bind, h1, h2, pure_eq_ok]
  · refine hend2.all_deleted hsources2 ?_ ?_
    · rw [hsinks2, hsinks1]
    · rw [hstreams2]
      exact hend1.streams (htype1.trans htype)

section

variable {g : Graph} {gs : List Graph}

/-- The search for the graph of a source comes to a graph that is deleted. -/
theorem delete_sources_stuck (hg : c.graphics_ = g :: gs) (hdel : g.ptr ∈ c.mem.deleted)
    (hsome : c.sources_ ≠ []) : c.delete_sources = .error .useAfterDelete := by
  obtain ⟨s, sources, hsources⟩ := List.exists_cons_of_ne_nil hsome
  have hfind : c.del_source s = .error .useAfterDelete := by
    unfold Conference.del_source
    rw [hg, find_deleted _ _ _ _ hdel]
    rfl
  unfold Conference.delete_sources
  rw [hsources]
  simp only [delete_members, hfind, error_bind]

/-- The search for the graph of a sink does so, too. With no sink, a source meets it. -/
theorem delete_members_stuck (htype : c.type = .CT_FREE) (hg : c.graphics_ = g :: gs)
    (hdel : g.ptr ∈ c.mem.deleted) (hsome : c.sources_ ≠ []) :
    (c.delete_sinks >>= Conference.delete_sources) = .error .useAfterDelete := by
  unfold Conference.delete_sinks
  cases hsinks : c.sinks_ with
  | nil =>
    simp only [delete_members, ok_bind, pure_eq_ok]
    exact delete_sources_stuck (by exact hg) hdel hsome
  | cons s sinks =>
    have hfind : c.del_sink s = .error .useAfterDelete := by
      rw [del_sink_of_free htype]
      unfold Conference.free_del_sink
      rw [hg, find_deleted _ _ _ _ hdel]
      rfl
    simp only [delete_members, hfind, error_bind]

end

/-- A free conference with a source walks its list of deleted graphs. -/
theorem Owned.free_not_ended (h : Owned c) (htype : c.type = .CT_FREE) (hsome : c.sources_ ≠ []) :
    c.destroy = .error .useAfterDelete := by
  obtain ⟨mem, hgraphs, hdeleted, -⟩ := h.delete_graphs
  obtain ⟨g, gs, hg⟩ : ∃ g gs, c.graphics_ = g :: gs := by
    cases hgraphics : c.graphics_ with
    | nil =>
      have hmap := h.graphs
      rw [hgraphics] at hmap
      exact absurd (List.map_eq_nil_iff.mp hmap.symm) hsome
    | cons g gs => exact ⟨g, gs, rfl⟩
  have hstuck : (Conference.delete_sinks { c with mem } >>= Conference.delete_sources) =
      .error .useAfterDelete :=
    delete_members_stuck htype hg (hdeleted g (by rw [hg]; exact List.mem_cons_self)) hsome
  unfold Conference.destroy Conference.free_destructor
  rw [htype]
  simp only [hgraphs, ok_bind]
  rw [hstuck]
  rfl

/-- The end of any conference. -/
theorem Sound.destroy (h : Sound c) : c.Ended ∨
    (c.destroy = .error .useAfterDelete ∧ c.type = .CT_FREE ∧ c.sources_ ≠ []) ∨
    c.destroy = .error .outOfBounds ∧ ¬ c.filters.video_mixer.has_end := by
  cases htype : c.type with
  | CT_DIRECTOR => exact (h.director_destroy htype).imp_right Or.inr
  | CT_FREE =>
    by_cases hnil : c.sources_ = []
    · exact Or.inl (h.free_ended htype hnil)
    · exact Or.inr (Or.inl ⟨h.owned.free_not_ended htype hnil, rfl, hnil⟩)

/-! ## The law -/

/-- What holds between two calls. No call on the conference uses a deleted object, or
deletes one again. -/
structure Consistent (c : Conference) : Prop where
  one_graph : ∀ s ∈ c.sources_, (c.graphics_.map Graph.source_).count s.ptr = 1
  alive : ∀ p, 0 < c.owned p → p ∉ c.mem.deleted
  graph_sinks : ∀ g ∈ c.graphics_, ∀ p ∈ g.sinks_, p ∈ c.sinks_.map Sink.ptr ∧ p ∉ c.mem.deleted
  stream_sinks : ∀ s ∈ c.streams_, ∀ p ∈ s.sinks_, p ∈ c.sinks_.map Sink.ptr ∧ p ∉ c.mem.deleted
  calls : ∀ call, c.call call ≠ .error .useAfterDelete ∧ c.call call ≠ .error .doubleDelete

/-- A sink in a list of a graph or a stream lives. -/
theorem Owned.subscribed_alive (h : Owned c) {p : Ptr} (hp : 0 < c.subscribed p) :
    p ∈ c.sinks_.map Sink.ptr ∧ p ∉ c.mem.deleted := by
  have hle := h.sinks p
  have hm : p ∈ c.sinks_.map Sink.ptr := List.count_pos_iff.mp (by omega)
  obtain ⟨s, hs, rfl⟩ := List.mem_map.mp hm
  exact ⟨hm, h.sink_alive hs⟩

theorem Sound.consistent (h : Sound c) : Consistent c := by
  refine ⟨fun s hs => ?_, fun p hp => h.owned.accounts.alive hp, fun g hg p hp => ?_,
    fun s hs p hp => ?_, fun call => ?_⟩
  · have hptrs : c.graphics_.map Graph.source_ = c.sources_.map Source.ptr := by
      have hmap := congrArg (List.map Prod.fst) h.owned.graphs
      rwa [List.map_map, List.map_map] at hmap
    rw [hptrs]
    exact List.count_eq_one_of_mem h.owned.sources_nodup (List.mem_map_of_mem hs)
  · refine h.owned.subscribed_alive ?_
    have hcount : 0 < (c.graphics_.flatMap Graph.sinks_).count p :=
      List.count_pos_iff.mpr (List.mem_flatMap.mpr ⟨g, hg, hp⟩)
    unfold Conference.subscribed
    omega
  · refine h.owned.subscribed_alive ?_
    have hcount : 0 < (c.streams_.flatMap Stream.sinks_).count p :=
      List.count_pos_iff.mpr (List.mem_flatMap.mpr ⟨s, hs, hp⟩)
    unfold Conference.subscribed
    omega
  · rcases h.call call with ⟨-, e, herr, he⟩ | ⟨-, herr, -⟩ | ⟨-, rc, c', hok, -⟩
    · rw [herr]
      rcases he with rfl | rfl <;> exact ⟨by simp, by simp⟩
    · rw [herr]
      exact ⟨by simp, by simp⟩
    · rw [hok]
      exact ⟨by simp, by simp⟩

/-- Every state of a run is consistent. At its end each object is deleted once exactly
when the conference is a director conference, or has no source. -/
theorem everything_is_deleted_once {type : ConferenceType} {env : Env} {want_alpha : Nat → Int}
    {id : Int} {calls : List Call} {c : Conference}
    (hrun : run step (Conference.new type env want_alpha id) calls = .ok c)
    (hcalls : ∀ call ∈ calls, is_member_call call = true) :
    Along step Consistent (Conference.new type env want_alpha id) calls ∧ c.Ended ↔
      type = .CT_DIRECTOR ∨ c.sources_ = [] := by
  have h := orderly_run hrun
    (meets_of_forall fun call hcall => member_call_lossless (hcalls call hcall))
  have htype := run_kind hrun
  have halong : Along step Consistent (Conference.new type env want_alpha id) calls :=
    along_of_run (fun _ h => h.consistent) (fun _ _ _ h hs => (Sound.step h hs).2)
      (new_sound type env want_alpha id) hrun
  cases type with
  | CT_DIRECTOR =>
    have hend := (h.sound.director_destroy htype).resolve_right fun hno => hno.2 h.ordered.has_end
    exact ⟨fun _ => Or.inl rfl, fun _ => ⟨halong, hend⟩⟩
  | CT_FREE =>
    constructor
    · rintro ⟨-, mem, tokens, hok, -⟩
      right
      by_contra hsome
      rw [h.sound.owned.free_not_ended htype hsome] at hok
      cases hok
    · rintro (hno | hnil)
      · cases hno
      · exact ⟨halong, h.sound.free_ended htype hnil⟩

/-- A director conference with a source and a sink of it. -/
theorem a_source_and_its_sink_are_deleted :
    ∃ c, run step (Conference.new .CT_DIRECTOR Env.still (fun _ => 255) 1)
        [.addSource Env.still [("payload", "100")], .addSink Env.still [("sid", "1")]] = .ok c ∧
      c.sinks_.length = 1 ∧ c.Ended := by
  obtain ⟨c, hrun, hlen⟩ : ∃ c, run step (Conference.new .CT_DIRECTOR Env.still (fun _ => 255) 1)
      [.addSource Env.still [("payload", "100")], .addSink Env.still [("sid", "1")]] = .ok c ∧
      c.sinks_.length = 1 := ⟨_, rfl, rfl⟩
  exact ⟨c, hrun, hlen, ((everything_is_deleted_once hrun (by simp [is_member_call])).mpr
    (Or.inl rfl)).2⟩

/-- The end of a free conference with one source. -/
theorem a_free_conference_uses_a_deleted_graph :
    ∃ c, run step (Conference.new .CT_FREE Env.still (fun _ => 255) 1)
        [.addSource Env.still [("payload", "100")]] = .ok c ∧
      c.destroy = .error .useAfterDelete ∧ ¬ c.Ended := by
  refine ⟨_, rfl, rfl, ?_⟩
  rintro ⟨mem, tokens, hok, -⟩
  cases hok

end zonekey_mcu.conference
