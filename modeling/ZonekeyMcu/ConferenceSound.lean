-- The invariant of a conference, and why each change and each effect keeps it:
-- who owns the members, how the streams are wired, and which ids they have.
import ZonekeyMcu.ConferenceEffects
import ZonekeyMcu.WiringStreams

open runs memory zonekey_mcu.members zonekey_mcu.options zonekey_mcu.director
open zonekey_mcu.video_mixer (Ordered)

namespace zonekey_mcu.conference

variable {c : Conference}

/-! ## The invariant of a conference -/

/-- Ids of sources are odd, and ids of streams are even. -/
structure Parity (c : Conference) : Prop where
  sid : 0 < c.sid_ ∧ c.sid_ % 2 = 1
  sources : ∀ s ∈ c.sources_, 0 < s.id_ ∧ s.id_ % 2 = 1
  stream_id : 0 ≤ c.stream_id_ ∧ c.stream_id_ % 2 = 0
  streams : ∀ s ∈ c.streams_, 0 ≤ s.id_ ∧ s.id_ % 2 = 0

/-- What holds of every conference, whatever was called on it. -/
structure Sound (c : Conference) : Prop where
  owned : Owned c
  wired : Wired c.filters (c.streams_.map wire)
  parity : Parity c

theorem is_source_id_iff {id : Int} (h : 0 ≤ id) : is_source_id id = true ↔ id % 2 = 1 := by
  unfold is_source_id
  rw [decide_eq_true_iff, Int.tmod_eq_emod_of_nonneg h]

theorem Parity.odd (h : Parity c) : ∀ s ∈ c.sources_, is_source_id s.id_ = true := by
  intro s hs
  obtain ⟨hpos, hodd⟩ := h.sources s hs
  exact (is_source_id_iff (by omega)).mpr hodd

theorem new_sound (type : ConferenceType) (env : Env) (want_alpha : Nat → Int) (id : Int) :
    Sound (Conference.new type env want_alpha id) where
  owned := new_owned type env want_alpha id
  wired := new_wired want_alpha
  parity := by
    refine ⟨⟨?_, rfl⟩, fun s hs => absurd hs List.not_mem_nil, ⟨?_, rfl⟩,
      fun s hs => absurd hs List.not_mem_nil⟩
    · change (0 : Int) < 1
      decide
    · change (0 : Int) ≤ 2
      decide

/-! ## Changes keep the invariant -/

@[simp] theorem wire_del_sink (s : Stream) (p : Ptr) : wire (s.del_sink p).2 = wire s := by
  rw [stream_del_sink_eq]
  rfl

@[simp] theorem wire_run (env : Env) (s : Stream) : wire (s.run env) = wire s := by
  obtain ⟨_, _, _, heq⟩ := stream_run_eq env s
  rw [heq]
  rfl

theorem other_streams (hacc : Accounts c.mem c.owned) {before after : List Stream} {s : Stream}
    (hs : c.streams_ = before ++ s :: after) : ∀ w ∈ (before ++ after).map wire, w.ptr ≠ s.ptr := by
  have hnd := accounts_streams hacc
  rw [hs, List.map_append, List.map_cons, List.nodup_middle, List.nodup_cons,
    ← List.map_append] at hnd
  intro w hm heq
  obtain ⟨t, ht, rfl⟩ := List.mem_map.mp hm
  exact hnd.1 (List.mem_map.mpr ⟨t, ht, heq⟩)

/-- What the filters are told when a stream goes. -/
theorem wired_stream_gone (hacc : Accounts c.mem c.owned)
    (hw : Wired c.filters (c.streams_.map wire)) {before after : List Stream} {s : Stream}
    (hs : c.streams_ = before ++ s :: after) :
    (c.filters.del_stream s = .error .outOfBounds ∧ ¬ c.filters.video_mixer.has_end ∧
      (wire s).is_video = true) ∨
    ∃ filters, c.filters.del_stream s = .ok (0, filters) ∧
      filters.links = wire_down c.filters.links (wire s) ∧
      (Ordered c.filters.video_mixer → Ordered filters.video_mixer) ∧
      (c.filters.video_mixer.has_end → filters.video_mixer.has_end) ∧
      Wired filters ((before ++ after).map wire) := by
  have hp := other_streams hacc hs
  rw [hs, List.map_append, List.map_cons] at hw
  rw [List.map_append] at hp ⊢
  exact hw.del_stream hp

theorem Sound.stream_gone (h : Sound c) {before after : List Stream} {s : Stream}
    (hs : c.streams_ = before ++ s :: after) :
    (c.filters.del_stream s = .error .outOfBounds ∧ ¬ c.filters.video_mixer.has_end ∧
      (wire s).is_video = true) ∨
    ∃ filters, c.filters.del_stream s = .ok (0, filters) ∧
      filters.links = wire_down c.filters.links (wire s) ∧
      (Ordered c.filters.video_mixer → Ordered filters.video_mixer) ∧
      (c.filters.video_mixer.has_end → filters.video_mixer.has_end) ∧
      Wired filters ((before ++ after).map wire) :=
  wired_stream_gone h.owned.accounts h.wired hs

theorem Sound.change_wired {c' : Conference} (h : Sound c) (hc : Change c c') :
    Wired c'.filters (c'.streams_.map wire) := by
  have hw := h.wired
  cases hc with
  | marked => exact hw
  | lost => exact hw
  | source_gone => exact hw
  | sink_gone => simpa [Function.comp_def] using hw
  | stream_gone hs hf =>
    rcases h.stream_gone hs with ⟨herr, -⟩ | ⟨filters, hok, -, -, -, hw'⟩
    · rw [herr] at hf
      cases hf
    · rw [hok] at hf
      cases hf
      exact hw'
  | source_turn => exact hw
  | sink_turn => exact hw
  | stream_turn env hs => simpa [hs] using hw

theorem mem_split {α : Type} {x y : α} {xs before after : List α} (h : xs = before ++ x :: after)
    (hy : y ∈ before ++ after) : y ∈ xs := by
  rw [h]
  exact mem_middle hy

theorem Parity.change {c' : Conference} (h : Parity c) (hc : Change c c') : Parity c' := by
  cases hc with
  | marked => exact ⟨h.sid, h.sources, h.stream_id, h.streams⟩
  | lost => exact ⟨h.sid, h.sources, h.stream_id, h.streams⟩
  | source_gone hs =>
    exact ⟨h.sid, fun s hm => h.sources s (mem_split hs hm), h.stream_id, h.streams⟩
  | sink_gone =>
    refine ⟨h.sid, h.sources, h.stream_id, fun t ht => ?_⟩
    obtain ⟨s, hs, rfl⟩ := List.mem_map.mp ht
    rw [stream_del_sink_eq]
    exact h.streams s hs
  | stream_gone hs =>
    exact ⟨h.sid, h.sources, h.stream_id, fun s hm => h.streams s (mem_split hs hm)⟩
  | source_turn env hs =>
    refine ⟨h.sid, fun s hm => ?_, h.stream_id, h.streams⟩
    rcases List.mem_append.mp hm with hm | hm
    · exact h.sources s (by simp [hs, hm])
    · rcases List.mem_cons.mp hm with rfl | hm
      · rw [source_run_id]
        exact h.sources _ (by simp [hs])
      · exact h.sources s (by simp [hs, hm])
  | sink_turn => exact ⟨h.sid, h.sources, h.stream_id, h.streams⟩
  | stream_turn env hs =>
    refine ⟨h.sid, h.sources, h.stream_id, fun s hm => ?_⟩
    rcases List.mem_append.mp hm with hm | hm
    · exact h.streams s (by simp [hs, hm])
    · rcases List.mem_cons.mp hm with rfl | hm
      · rw [stream_run_id]
        exact h.streams _ (by simp [hs])
      · exact h.streams s (by simp [hs, hm])

theorem Sound.change {c' : Conference} (h : Sound c) (hc : Change c c') : Sound c' :=
  ⟨h.owned.change hc, h.change_wired hc, h.parity.change hc⟩

theorem Sound.changes {c' : Conference} (h : Sound c) (hc : Changes c c') : Sound c' := by
  induction hc with
  | refl => exact h
  | tail _ hstep ih => exact ih.change hstep

/-- A change keeps the order of the pictures. -/
theorem Sound.change_ordered {c' : Conference} (h : Sound c) (hc : Change c c')
    (ho : Ordered c.filters.video_mixer) : Ordered c'.filters.video_mixer := by
  cases hc with
  | stream_gone hs hf =>
    rcases h.stream_gone hs with ⟨-, hno, -⟩ | ⟨filters, hok, -, hkeep, -⟩
    · exact absurd ho.has_end hno
    · rw [hok] at hf
      cases hf
      exact hkeep ho
  | _ => exact ho

/-- A change leaves the end of the z-order array where it is. -/
theorem Sound.change_has_end {c' : Conference} (h : Sound c) (hc : Change c c')
    (hend : c.filters.video_mixer.has_end) : c'.filters.video_mixer.has_end := by
  cases hc with
  | stream_gone hs hf =>
    rcases h.stream_gone hs with ⟨-, hno, -⟩ | ⟨filters, hok, -, -, hkeep, -⟩
    · exact absurd hend hno
    · rw [hok] at hf
      cases hf
      exact hkeep hend
  | _ => exact hend

theorem Sound.changes_has_end {c' : Conference} (h : Sound c) (hc : Changes c c')
    (hend : c.filters.video_mixer.has_end) : c'.filters.video_mixer.has_end := by
  induction hc with
  | refl => exact hend
  | tail hrest hstep ih => exact (h.changes hrest).change_has_end hstep ih

theorem Sound.changes_ordered {c' : Conference} (h : Sound c) (hc : Changes c c')
    (ho : Ordered c.filters.video_mixer) : Ordered c'.filters.video_mixer := by
  induction hc with
  | refl => exact ho
  | tail hrest hstep ih => exact (h.changes hrest).change_ordered hstep ih

/-! ## Effects keep the invariant -/

/-- The pointer of a new stream is that of no live stream. -/
theorem Owned.fresh_wire (h : Owned c) : ∀ w ∈ c.streams_.map wire, w.ptr ≠ c.mem.next := by
  rintro w hw heq
  obtain ⟨s, hs, rfl⟩ := List.mem_map.mp hw
  have hcount := count_map_pos Stream.ptr hs
  have hfresh := h.fresh
  change s.ptr = c.mem.next at heq
  rw [heq] at hcount
  unfold Conference.owned at hfresh
  omega

theorem Owned.source_added (h : Owned c) {s : Source} (hs : s.ptr = c.mem.next) :
    Owned (c.source_added s) where
  accounts := by
    have hnew : Accounts ⟨c.mem.next + 2, c.mem.deleted⟩ fun p => c.owned p +
        (if p = c.mem.next then 1 else 0) + if p = c.mem.next + 1 then 1 else 0 :=
      h.accounts.alloc.alloc
    refine hnew.congr fun p => ?_
    simp only [Conference.owned, Conference.source_added, List.map_append, List.map_cons,
      List.map_nil, List.count_append, count_cons_ite, List.count_nil, Graph.new, hs]
    omega
  graphs := by
    simp [Conference.source_added, h.graphs, Graph.new, graph_key, source_key, Source.source_id]
  sinks p := by
    have hle := h.sinks p
    simpa [Conference.subscribed, Conference.source_added, Graph.new] using hle
  streams := h.streams
  publishers := h.publishers

/-- One list of sinks gets one more sink. -/
theorem count_subscribe {α : Type} (ptr : α → Ptr) (sinks : α → List Ptr) (add : α → α)
    {sink : Ptr} (hadd : ∀ x, sinks (add x) = sinks x ++ [sink]) (q : Ptr) {xs : List α}
    (hnd : (xs.map ptr).Nodup) (p : Ptr) :
    ((xs.map fun x => if ptr x = q then add x else x).flatMap sinks).count p ≤
      (xs.flatMap sinks).count p + if p = sink then 1 else 0 := by
  induction xs with
  | nil => simp
  | cons x xs ih =>
    rw [List.map_cons, List.nodup_cons] at hnd
    rw [List.map_cons, List.flatMap_cons, List.flatMap_cons, List.count_append, List.count_append]
    by_cases hx : ptr x = q
    · have hsame : (xs.map fun x => if ptr x = q then add x else x) = xs := by
        conv_rhs => rw [← List.map_id xs]
        refine List.map_congr_left fun y hy => ?_
        rw [if_neg]
        · rfl
        · rintro rfl
          exact hnd.1 (List.mem_map.mpr ⟨y, hy, hx.symm⟩)
      rw [if_pos hx, hsame, hadd, List.count_append, count_cons_ite, List.count_nil]
      omega
    · rw [if_neg hx]
      have := ih hnd.2
      omega

/-- A stream that is the target of a sink has a publisher. -/
theorem target_stream {sid : Int} {p : Ptr} (ht : c.target sid = some (.stream p)) :
    ∃ s ∈ c.streams_, s.ptr = p ∧ s.support_publisher = true := by
  unfold Conference.target at ht
  split at ht
  · cases ht
  · split at ht
    · obtain ⟨g, -, hg⟩ := Option.map_eq_some_iff.mp ht
      cases hg
    · obtain ⟨s, hs, hif⟩ := Option.bind_eq_some_iff.mp ht
      split at hif
      · rename_i hpub
        cases hif
        exact ⟨s, List.mem_of_find?_eq_some hs, rfl, hpub⟩
      · cases hif

/-- The parts of a conference that a subscription leaves as they are. -/
theorem subscribe_frame (c : Conference) (target : Target) (sink : Ptr) :
    (c.subscribe target sink).graphics_.map Graph.ptr = c.graphics_.map Graph.ptr ∧
    (c.subscribe target sink).graphics_.map graph_key = c.graphics_.map graph_key ∧
    (c.subscribe target sink).streams_.map Stream.ptr = c.streams_.map Stream.ptr ∧
    (c.subscribe target sink).streams_.map wire = c.streams_.map wire ∧
    (c.subscribe target sink).streams_.map Stream.id_ = c.streams_.map Stream.id_ := by
  cases target with
  | mix => exact ⟨rfl, rfl, rfl, rfl, rfl⟩
  | graph p =>
    refine ⟨?_, ?_, rfl, rfl, rfl⟩ <;>
      · simp only [Conference.subscribe, Conference.set_graph, List.map_map]
        refine List.map_congr_left fun g _ => ?_
        simp only [Function.comp_apply]
        split <;> rfl
  | stream p =>
    refine ⟨rfl, rfl, ?_, ?_, ?_⟩ <;>
      · simp only [Conference.subscribe, Conference.set_stream, List.map_map]
        refine List.map_congr_left fun s _ => ?_
        simp only [Function.comp_apply]
        split <;> rfl

theorem subscribe_same (c : Conference) (target : Target) (sink : Ptr) :
    ∃ graphics_ streams_, c.subscribe target sink = { c with graphics_, streams_ } := by
  cases target <;> exact ⟨_, _, rfl⟩

theorem Owned.subscribed_subscribe (h : Owned c) (target : Target) (sink p : Ptr) :
    (c.subscribe target sink).subscribed p ≤ c.subscribed p + if p = sink then 1 else 0 := by
  cases target with
  | mix => exact Nat.le_add_right _ _
  | graph q =>
    have := count_subscribe Graph.ptr Graph.sinks_
      (fun g => { g with sinks_ := g.sinks_ ++ [sink] }) (fun g => rfl) q h.graphs_nodup p
    unfold Conference.subscribed Conference.subscribe Conference.set_graph
    dsimp only
    omega
  | stream q =>
    have := count_subscribe Stream.ptr Stream.sinks_
      (fun s => { s with sinks_ := s.sinks_ ++ [sink] }) (fun s => rfl) q h.streams_nodup p
    unfold Conference.subscribed Conference.subscribe Conference.set_stream
    dsimp only
    omega

theorem Owned.sink_added (h : Owned c) {sid : Int} {target : Target}
    (ht : c.target sid = some target) {s : Sink} (hs : s.ptr = c.mem.next) :
    Owned (c.sink_added target s) := by
  obtain ⟨hgptr, hgkey, hsptr, -, -⟩ := subscribe_frame c target s.ptr
  have hle := h.subscribed_subscribe target s.ptr
  obtain ⟨graphics_, streams_, heq⟩ := subscribe_same c target s.ptr
  have hpub : ∀ t ∈ (c.subscribe target s.ptr).streams_, t.support_publisher = false →
      t.sinks_ = [] := by
    intro t hm hp
    cases target with
    | mix => exact h.publishers t hm hp
    | graph p => exact h.publishers t hm hp
    | stream p =>
      obtain ⟨t', ht', rfl⟩ := List.mem_map.mp hm
      obtain ⟨u, hu, huptr, hupub⟩ := target_stream ht
      by_cases hp' : t'.ptr = p
      · have hsame := List.inj_on_of_nodup_map h.streams_nodup ht' hu (hp'.trans huptr.symm)
        rw [if_pos hp'] at hp
        rw [hsame] at hp
        exact absurd hupub (by rw [hp]; decide)
      · rw [if_neg hp'] at hp ⊢
        exact h.publishers t' ht' hp
  unfold Conference.sink_added Conference.adding
  rw [heq] at hgptr hgkey hsptr hle hpub ⊢
  dsimp only at hgptr hgkey hsptr hle hpub ⊢
  refine ⟨?_, hgkey.trans h.graphs, fun p => ?_, fun hfree => ?_, hpub⟩
  · refine h.accounts.alloc.congr fun p => ?_
    simp only [Conference.owned, hgptr, hsptr, List.map_append, List.map_cons, List.map_nil,
      List.count_append, count_cons_ite, List.count_nil, hs]
    omega
  · have hsinks := h.sinks p
    have := hle p
    rw [List.map_append, List.map_cons, List.map_nil, List.count_append, count_cons_ite,
      List.count_nil]
    unfold Conference.subscribed at this hsinks ⊢
    dsimp only at this ⊢
    omega
  · have hnil := h.streams hfree
    rw [hnil] at hsptr
    simpa using hsptr

theorem Owned.stream_added (h : Owned c) {s : Stream} (hs : s.ptr = c.mem.next)
    (hsinks : s.sinks_ = []) (htype : c.type = .CT_DIRECTOR) (filters : Filters) :
    Owned (c.stream_added s filters) where
  accounts := by
    refine h.accounts.alloc.congr fun p => ?_
    simp only [Conference.owned, Conference.stream_added, List.map_append, List.map_cons,
      List.map_nil, List.count_append, count_cons_ite, List.count_nil, hs]
    omega
  graphs := h.graphs
  sinks p := by
    have hle := h.sinks p
    simpa [Conference.subscribed, Conference.stream_added, hsinks] using hle
  streams hfree := by
    have hno : c.type = .CT_FREE := hfree
    rw [htype] at hno
    cases hno
  publishers t ht hp := by
    rcases List.mem_append.mp ht with ht | ht
    · exact h.publishers t ht hp
    · rw [List.mem_singleton.mp ht, hsinks]

/-! ## Edits of the pictures -/

/-- The calls that edit pictures keep which channels are in use. -/
theorem edits_idle {ops : List video_mixer.Op} (hops : ∀ op ∈ ops, is_edit op = true)
    {m m' : video_mixer.CTX} (hr : run video_mixer.step m ops = .ok m') (i : Nat) :
    (m'.channels_ i).idle_ = (m.channels_ i).idle_ := by
  induction ops generalizing m with
  | nil => cases hr; rfl
  | cons op ops ih =>
    obtain ⟨u, hu, hrest⟩ := run_cons_inv hr
    rw [ih (fun o ho => hops o (List.mem_cons_of_mem op ho)) hrest]
    have hop := hops op List.mem_cons_self
    unfold video_mixer.step video_mixer.CTX.call at hu
    cases op with
    | get_channel => cases hop
    | free_channel => cases hop
    | set_channel_desc desc =>
      rcases set_channel_desc_cases m desc with ⟨hset, -⟩ | ⟨-, hset⟩
      · simp only [hset, Except.map, Except.ok.injEq] at hu
        rw [← hu]
      · simp only [hset, Except.map, Except.ok.injEq] at hu
        rw [← hu]
        by_cases hi : i = desc.id.toNat
        · subst hi
          simp [placed]
        · rw [video_mixer.set_channel_ne _ _ hi]
    | rezorder id oper =>
      rcases rezorder_cases m id oper with ⟨rc, z, hz⟩ | ⟨hz, -⟩
      · simp only [hz, Except.map, Except.ok.injEq] at hu
        rw [← hu]
      · simp [hz, Except.map] at hu

theorem Sound.edit (h : Sound c) {m : video_mixer.CTX}
    (hidle : ∀ i, (m.channels_ i).idle_ = (c.filters.video_mixer.channels_ i).idle_) :
    Sound (c.with_video_mixer m) where
  owned := ⟨h.owned.accounts, h.owned.graphs, h.owned.sinks, h.owned.streams, h.owned.publishers⟩
  wired := by
    have hw := h.wired
    refine ⟨hw.linked, hw.first, hw.known, hw.payloads, hw.sinks, hw.videos, hw.audio_cnt,
      hw.video_cnt, hw.channels, hw.range, fun i hi => ?_⟩
    change (m.channels_ i).idle_ = false ↔ _
    rw [hidle i]
    exact hw.employed i hi
  parity := ⟨h.parity.sid, h.parity.sources, h.parity.stream_id, h.parity.streams⟩

/-! ## Every effect keeps the invariant -/

theorem next_sid_odd {sid : Int} (h : 0 < sid ∧ sid % 2 = 1) :
    0 < next_sid sid ∧ next_sid sid % 2 = 1 := by
  unfold next_sid
  split <;> omega

theorem next_stream_id_even {id : Int} (h : 0 ≤ id ∧ id % 2 = 0) :
    0 ≤ next_stream_id id ∧ next_stream_id id % 2 = 0 := by
  unfold next_stream_id
  split <;> omega

theorem forall_append_one {α : Type} {p : α → Prop} {xs : List α} {x : α}
    (hxs : ∀ y ∈ xs, p y) (hx : p x) : ∀ y ∈ xs ++ [x], p y := by
  intro y hy
  rcases List.mem_append.mp hy with hy | hy
  · exact hxs y hy
  · rwa [List.mem_singleton.mp hy]

theorem stream_kind {payload : Int} (h : is_stream_payload payload = true) :
    payload = 100 ∨ is_audio_payload payload = true := by
  unfold is_stream_payload at h
  unfold is_audio_payload
  simp only [decide_eq_true_eq] at h ⊢
  tauto

theorem stream_wire_kind {env : Env} {sink publisher : Bool} {params : KVS}
    (h : is_stream_payload (param_i params "payload") = true) :
    (wire (c.new_stream env sink publisher params)).is_video = true ∨
      (wire (c.new_stream env sink publisher params)).is_audio = true :=
  (stream_kind h).imp (is_video_iff (c.new_stream env sink publisher params)).mpr id

/-- The filters after a stream was added: it has a channel, and is wired to it. -/
theorem Sound.stream_channel (h : Sound c) {env : Env} {sink publisher : Bool} {params : KVS}
    {rc : Int} {stream : Stream} {filters : Filters}
    (hpay : is_stream_payload (param_i params "payload") = true)
    (hadd : c.filters.add_stream (c.new_stream env sink publisher params) params =
      .ok (rc, stream, filters)) (hrc : 0 ≤ rc) :
    ∃ cid, stream = (c.new_stream env sink publisher params).set_channel_id cid ∧
      (Ordered c.filters.video_mixer → Ordered filters.video_mixer) ∧
      Wired filters (c.streams_.map wire ++ [wire stream]) := by
  rcases h.wired.add_stream (s := c.new_stream env sink publisher params) h.owned.fresh_wire
    (stream_wire_kind hpay) params with hno | ⟨herr, -⟩ | ⟨cid, f', hok, ho, hw⟩
  · rw [hno] at hadd
    cases hadd
    exact absurd hrc (by decide)
  · rw [herr] at hadd
    cases hadd
  · rw [hok] at hadd
    cases hadd
    exact ⟨cid, rfl, ho, hw⟩

theorem Sound.counted (h : Sound c) : Sound c.counted :=
  ⟨h.owned.counted, h.wired, ⟨h.parity.sid, h.parity.sources, h.parity.stream_id,
    h.parity.streams⟩⟩

theorem Sound.effect {call : Call} {c' : Conference} (h : Sound c) (he : Effect c call c') :
    Sound c' := by
  cases he with
  | changes hc => exact h.changes hc
  | refused env params hc => exact h.counted.changes hc
  | addSource env params =>
    refine ⟨h.owned.source_added rfl, h.wired, ⟨next_sid_odd h.parity.sid, ?_,
      h.parity.stream_id, h.parity.streams⟩⟩
    exact forall_append_one h.parity.sources h.parity.sid
  | addSink env params hchk hpay hkind ht =>
    rename_i payload target
    obtain ⟨-, -, -, hwire, hids⟩ := subscribe_frame c target c.mem.next
    obtain ⟨graphics_, streams_, heq⟩ := subscribe_same c target c.mem.next
    rw [heq] at hwire hids
    dsimp only at hwire hids
    refine ⟨h.owned.sink_added ht rfl, ?_, ?_⟩
    · have hw := h.wired
      rw [← hwire] at hw
      unfold Conference.sink_added Conference.adding
      change Wired (c.subscribe target c.mem.next).filters
        ((c.subscribe target c.mem.next).streams_.map wire)
      rw [heq]
      exact hw
    · unfold Conference.sink_added Conference.adding
      dsimp only [Conference.new_sink, Sink.new]
      rw [heq]
      refine ⟨h.parity.sid, h.parity.sources, h.parity.stream_id, fun s hs => ?_⟩
      have hid : s.id_ ∈ streams_.map Stream.id_ := List.mem_map_of_mem hs
      rw [hids] at hid
      obtain ⟨t, ht, htid⟩ := List.mem_map.mp hid
      rw [← htid]
      exact h.parity.streams t ht
  | addStream env sink publisher params hcall htype hchk hpay hadd hrc =>
    obtain ⟨cid, rfl, -, hw⟩ := h.stream_channel hpay hadd hrc
    refine ⟨h.owned.stream_added rfl rfl htype _, ?_, ⟨h.parity.sid, h.parity.sources,
      next_stream_id_even h.parity.stream_id, ?_⟩⟩
    · unfold Conference.stream_added
      rw [List.map_append]
      exact hw
    · exact forall_append_one h.parity.streams h.parity.stream_id
  | edit htype ops setting hops hm => exact h.edit fun i => edits_idle (edits_are_edits hops) hm i

end zonekey_mcu.conference
