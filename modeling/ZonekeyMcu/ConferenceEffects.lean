-- What each call on a conference can do, said once. A call that ends adds one
-- member, edits the pictures of the video mixer, or makes changes that add
-- nothing. Each law of a conference is then a case analysis over these effects.
import ZonekeyMcu.Ownership
import ZonekeyMcu.Lib.Runs

open runs memory zonekey_mcu.members zonekey_mcu.options zonekey_mcu.director

namespace zonekey_mcu.conference

/-! ## The effects -/

def Conference.new_source (c : Conference) (env : Env) (params : KVS) : Source :=
  Source.new env c.mem.next c.sid_ (param_i params "payload") (param_or_empty params "desc")

/-- The conference after a source was added, with its graph. -/
def Conference.source_added (c : Conference) (s : Source) : Conference :=
  { c with
    sources_ := c.sources_ ++ [s]
    graphics_ := c.graphics_ ++ [Graph.new (c.mem.next + 1) s s.source_id]
    sid_ := next_sid c.sid_
    mem := ⟨c.mem.next + 2, c.mem.deleted⟩ }

/-- Where a sink gets its packets from: the publishers of the conference, a graph,
or a stream. -/
inductive Target
  | mix
  | graph (p : Ptr)
  | stream (p : Ptr)

/-- The graph or the stream at the target has the sink in its list. -/
def Conference.subscribe (c : Conference) (target : Target) (sink : Ptr) : Conference :=
  match target with
  | .mix => c
  | .graph p => c.set_graph p fun g => { g with sinks_ := g.sinks_ ++ [sink] }
  | .stream p => c.set_stream p fun s => { s with sinks_ := s.sinks_ ++ [sink] }

/-- What the id `sid` names for a new sink. -/
def Conference.target (c : Conference) (sid : Int) : Option Target :=
  if c.type = .CT_DIRECTOR ∧ sid = -1 then some .mix
  else if is_source_id sid then
    (c.graphics_.find? fun g => g.id_ = sid).map fun g => .graph g.ptr
  else (c.streams_.find? fun s => s.stream_id = sid).bind fun s =>
    if s.support_publisher then some (.stream s.ptr) else none

/-- The command names a payload and a target for a new sink. -/
def Conference.takes_sink (c : Conference) (params : KVS) : Prop :=
  ∃ payload target, chk_params params ["sid"] = none ∧
    c.sink_payload params = .ok (some payload) ∧ is_sink_payload payload = true ∧
    c.target (param_i params "sid") = some target

def Conference.new_sink (c : Conference) (env : Env) (payload : Int) (params : KVS) : Sink :=
  Sink.new env c.mem.next (next_sink_id c.sink_id_) payload (param_or_empty params "desc")
    (param_or_empty params "who")

/-- While a sink is being added, it has a pointer but no list owns it yet. -/
def Conference.adding (c : Conference) (sink_id_ : Int) : Conference :=
  { c with sink_id_, mem := ⟨c.mem.next + 1, c.mem.deleted⟩ }

/-- The conference after a sink was added. -/
def Conference.sink_added (c : Conference) (target : Target) (s : Sink) : Conference :=
  let c := (c.subscribe target s.ptr).adding s.id_
  { c with sinks_ := c.sinks_ ++ [s] }

/-- The object that the constructor of a stream gives. -/
def Conference.new_stream (c : Conference) (env : Env) (sink publisher : Bool) (params : KVS) :
    Stream :=
  Stream.new env c.mem.next c.stream_id_ (param_i params "payload") (param_or_empty params "desc")
    sink publisher

/-- The conference after a stream was added. -/
def Conference.stream_added (c : Conference) (s : Stream) (filters : Filters) : Conference :=
  { c with
    streams_ := c.streams_ ++ [s]
    stream_id_ := next_stream_id c.stream_id_
    filters := filters
    mem := ⟨c.mem.next + 1, c.mem.deleted⟩ }

/-- The command asks for a source with a payload that is supported. -/
def asks_source (params : KVS) : Prop :=
  chk_params params ["payload"] = none ∧
    (param_i params "payload" = 100 ∨ param_i params "payload" = 110)

/-- The command asks for a stream with a payload that is supported. -/
def asks_stream (params : KVS) : Prop :=
  chk_params params ["payload"] = none ∧ is_stream_payload (param_i params "payload") = true

/-- The command asks for a stream, and there is room for it. -/
def Conference.takes_stream (c : Conference) (params : KVS) : Prop :=
  c.type = .CT_DIRECTOR ∧ asks_stream params ∧ ¬ c.filters.full (param_i params "payload")

/-- A call of one of the two commands that add a stream. -/
def stream_call (env : Env) (sink publisher : Bool) (params : KVS) : Call → Prop
  | .addStream env' params' => env' = env ∧ params' = params ∧ sink = true ∧ publisher = false
  | .addStreamWithPublisher env' params' =>
    env' = env ∧ params' = params ∧ sink = false ∧ publisher = true
  | _ => False

/-- The calls on the pictures of the video mixer. -/
def is_edit : video_mixer.Op → Bool
  | .set_channel_desc _ => true
  | .rezorder _ _ => true
  | _ => false

/-- The place that a command with parameters gives to a stream. -/
def desc_of_params (params : KVS) (s : Stream) : video_mixer.ChannelDesc where
  id := s.channel_id
  x := param_i params "x"
  y := param_i params "y"
  width := param_i params "width"
  height := param_i params "height"
  alpha := param_i params "alpha"

/-- The stream that a command with parameters names, and what it asks of the video
mixer. There is none when the command fails. -/
def Conference.commanded (c : Conference) (params : KVS) : Option (Stream × video_mixer.Op) :=
  let s := c.streams_.find? fun s => s.stream_id = param_i params "streamid"
  if param params "name" = "v.desc" ∧
      chk_params params ["streamid", "x", "y", "width", "height", "alpha"] = none then
    s.map fun s => (s, .set_channel_desc (desc_of_params params s))
  else if param params "name" = "v.zorder" ∧ chk_params params ["streamid", "oper"] = none then
    s.bind fun s => (zorder_oper (param params "oper")).map fun oper =>
      (s, .rezorder s.channel_id oper)
  else none

/-- The command moves a picture in the z-order. -/
def Conference.moves_picture (c : Conference) (params : KVS) : Prop :=
  ∃ s oper, c.commanded params = some (s, .rezorder s.channel_id oper)

/-- The calls on the video mixer that a command makes to edit the pictures. -/
def Conference.edits (c : Conference) : Call → List video_mixer.Op → Prop
  | .setParams params, ops => ops = (c.commanded params).toList.map Prod.snd
  | .vs_exchange_position _ _, ops => ∀ op ∈ ops, ∃ desc, op = .set_channel_desc desc
  | _, _ => False

/-- The conference after the id of a sink was taken. -/
def Conference.counted (c : Conference) : Conference :=
  { c with sink_id_ := next_sink_id c.sink_id_ }

inductive Effect (c : Conference) : Call → Conference → Prop
  | changes {call : Call} {c' : Conference} (h : Changes c c') : Effect c call c'
  | refused (env : Env) (params : KVS) {c' : Conference} (h : Changes c.counted c') :
      Effect c (.addSink env params) c'
  | addSource (env : Env) (params : KVS) (hchk : chk_params params ["payload"] = none)
      (hpay : param_i params "payload" = 100 ∨ param_i params "payload" = 110) :
      Effect c (.addSource env params) (c.source_added (c.new_source env params))
  | addSink (env : Env) (params : KVS) {payload : Int} {target : Target}
      (hchk : chk_params params ["sid"] = none)
      (hpay : c.sink_payload params = .ok (some payload)) (hkind : is_sink_payload payload = true)
      (ht : c.target (param_i params "sid") = some target) :
      Effect c (.addSink env params) (c.sink_added target (c.new_sink env payload params))
  | addStream {call : Call} (env : Env) (sink publisher : Bool) (params : KVS) {rc : Int}
      {stream : Stream} {filters : Filters} (hcall : stream_call env sink publisher params call)
      (htype : c.type = .CT_DIRECTOR) (hchk : chk_params params ["payload"] = none)
      (hpay : is_stream_payload (param_i params "payload") = true)
      (hadd : c.filters.add_stream (c.new_stream env sink publisher params) params =
        .ok (rc, stream, filters)) (hrc : 0 ≤ rc) :
      Effect c call (c.stream_added stream filters)
  | edit {call : Call} {m : video_mixer.CTX} (htype : c.type = .CT_DIRECTOR)
      (ops : List video_mixer.Op) (setting : video_mixer.EncoderSetting) (hops : c.edits call ops)
      (hm : run video_mixer.step c.filters.video_mixer ops = .ok m) :
      Effect c call (c.with_video_mixer (m.set_encoder setting))

variable {c : Conference}

theorem commanded_some {params : KVS} {s : Stream} {op : video_mixer.Op}
    (h : c.commanded params = some (s, op)) :
    c.streams_.find? (fun s => s.stream_id = param_i params "streamid") = some s ∧
      (op = .set_channel_desc (desc_of_params params s) ∨
        ∃ oper, op = .rezorder s.channel_id oper) := by
  unfold Conference.commanded at h
  dsimp only at h
  split at h
  · obtain ⟨t, ht, heq⟩ := Option.map_eq_some_iff.mp h
    cases heq
    exact ⟨ht, Or.inl rfl⟩
  · split at h
    · obtain ⟨t, ht, hop⟩ := Option.bind_eq_some_iff.mp h
      obtain ⟨oper, -, heq⟩ := Option.map_eq_some_iff.mp hop
      cases heq
      exact ⟨ht, Or.inr ⟨oper, rfl⟩⟩
    · cases h

theorem edits_are_edits {call : Call} {ops : List video_mixer.Op} (h : c.edits call ops) :
    ∀ op ∈ ops, is_edit op = true := by
  intro op hop
  cases call with
  | setParams params =>
    cases hcmd : c.commanded params with
    | none =>
      have hnil : ops = [] := by simpa [Conference.edits, hcmd] using h
      rw [hnil] at hop
      cases hop
    | some r =>
      obtain ⟨s, op'⟩ := r
      simp only [Conference.edits, hcmd, Option.toList_some, List.map_cons, List.map_nil] at h
      rw [h, List.mem_singleton] at hop
      rcases (commanded_some hcmd).2 with heq | ⟨oper, heq⟩ <;> rw [hop, heq] <;> rfl
  | vs_exchange_position id1 id2 =>
    obtain ⟨desc, rfl⟩ := h op hop
    rfl
  | _ => exact h.elim

theorem changes_one {c' : Conference} (h : Change c c') : Changes c c' :=
  Relation.ReflTransGen.single h

theorem Owned.changes {c' : Conference} (h : Owned c) (hc : Changes c c') : Owned c' := by
  induction hc with
  | refl => exact h
  | tail _ hstep ih => exact ih.change hstep

theorem Owned.counted (h : Owned c) : Owned c.counted :=
  ⟨h.accounts, h.graphs, h.sinks, h.streams, h.publishers⟩

/-! ## Searches -/

/-- A search that finds an element splits the list there. -/
theorem find_split {α : Type} {p : α → Bool} {xs : List α} {x : α} (h : xs.find? p = some x) :
    ∃ before after, xs = before ++ x :: after ∧ xs.eraseP p = before ++ after ∧ p x = true := by
  obtain ⟨hp, before, after, rfl, hbefore⟩ := List.find?_eq_some_iff_append.mp h
  refine ⟨before, after, rfl, ?_, hp⟩
  rw [List.eraseP_append_right, List.eraseP_cons_of_pos hp]
  intro y hy
  simpa using hbefore y hy

/-- The delete of a pointer that was not deleted before. -/
theorem delete_ok {p : Ptr} (h : p ∉ c.mem.deleted) :
    c.delete p = .ok { c with mem := ⟨c.mem.next, p :: c.mem.deleted⟩ } := by
  unfold Conference.delete Memory.delete
  rw [if_neg h]
  rfl

/-! ## Sources -/

/-- A command that adds a source is refused, or adds one. -/
theorem addSource_cases (c : Conference) (env : Env) (params results : KVS) :
    c.addSource env params results = .ok (-1, results, c) ∧
        ¬ (chk_params params ["payload"] = none ∧
          (param_i params "payload" = 100 ∨ param_i params "payload" = 110)) ∨
      c.addSource env params results = .ok (0, answer_of env "sid" c.sid_ results,
          c.source_added (c.new_source env params)) ∧
        chk_params params ["payload"] = none ∧
          (param_i params "payload" = 100 ∨ param_i params "payload" = 110) := by
  unfold Conference.addSource
  by_cases hchk : chk_params params ["payload"] = none
  · by_cases hpay : param_i params "payload" = 100 ∨ param_i params "payload" = 110
    · right
      refine ⟨?_, hchk, hpay⟩
      rw [if_neg (fun h => h hchk), if_neg (fun h => hpay.elim h.1 h.2)]
      simp only [Conference.add_source, Memory.alloc, Int.lt_irrefl, if_false, pure_eq_ok]
      simp [Conference.source_added, Conference.new_source, Source.new, Source.source_id]
    · left
      refine ⟨?_, fun h => hpay h.2⟩
      rw [if_neg (fun h => h hchk), if_pos (not_or.mp hpay)]
  · left
    exact ⟨if_pos hchk, fun h => hchk h.1⟩

/-- The delete of a source and of its graph. The list of sources is not used. -/
theorem Owned.del_source (h : Owned c) {before after : List Source} {s : Source}
    (hs : c.sources_ = before ++ s :: after) (sources_ : List Source) :
    ∃ gb g ga, c.graphics_ = gb ++ g :: ga ∧ gb.map graph_key = before.map source_key ∧
      Conference.del_source { c with sources_ } s =
        .ok (0, { c with
          sources_
          graphics_ := gb ++ ga
          mem := ⟨c.mem.next, g.ptr :: c.mem.deleted⟩ }) ∧
      s.ptr ∉ g.ptr :: c.mem.deleted := by
  obtain ⟨gb, g, ga, hg, hgb, hsource, -, -⟩ := h.graph_of hs
  have hbefore : ∀ g' ∈ gb, ¬ g'.source_ = s.ptr := by
    intro g' hg' heq
    have hkey : graph_key g' ∈ before.map source_key := hgb ▸ List.mem_map_of_mem hg'
    obtain ⟨s', hs', hk⟩ := List.mem_map.mp hkey
    have hptr : s'.ptr = g'.source_ := congrArg Prod.fst hk
    have hnd := h.sources_nodup
    rw [hs, List.map_append, List.map_cons, List.nodup_middle, List.nodup_cons] at hnd
    apply hnd.1
    rw [← heq, ← hptr]
    exact List.mem_append_left _ (List.mem_map_of_mem hs')
  have hfind : c.graphics_.find? (fun g => g.source_ = s.ptr) = some g := by
    rw [hg, List.find?_append, List.find?_cons_of_pos (by simpa using hsource)]
    rw [List.find?_eq_none.mpr (by simpa using hbefore)]
    rfl
  have herase : c.graphics_.eraseP (fun g => g.source_ = s.ptr) = gb ++ ga := by
    rw [hg, List.eraseP_append_right _ (by simpa using hbefore),
      List.eraseP_cons_of_pos (by simpa using hsource)]
  have hgm : g ∈ c.graphics_ := by simp [hg]
  refine ⟨gb, g, ga, hg, hgb, ?_, ?_⟩
  · unfold Conference.del_source
    rw [find_alive _ _ _ fun _ hg => h.graph_alive hg, hfind]
    simp only [ok_bind, herase]
    rw [delete_ok (by exact h.graph_alive hgm)]
    rfl
  · have hle := h.accounts.le_one s.ptr
    have hsm : s ∈ c.sources_ := by simp [hs]
    have hsp := count_map_pos Source.ptr hsm
    have hgp := count_map_pos Graph.ptr hgm
    intro hmem
    rcases List.mem_cons.mp hmem with heq | hmem
    · rw [heq] at hle hsp
      unfold Conference.owned at hle
      omega
    · exact h.source_alive (by simp [hs]) hmem

/-- A member that was found is named. -/
theorem not_refused {α : Type} {o : Option String} {l : List α} {key : α → Int} {n : Int} {x : α}
    (ho : o = none) (hx : x ∈ l) (hid : key x = n) : ¬ (o ≠ none ∨ ∀ s ∈ l, key s ≠ n) := by
  rintro (hno | hno)
  · exact hno ho
  · exact hno x hx hid

theorem Owned.delSource (h : Owned c) (params results : KVS) : ∃ rc c',
    c.delSource params results = .ok (rc, results, c') ∧ Changes c c' ∧
      (chk_params params ["sid"] ≠ none ∨ (∀ s ∈ c.sources_, s.id_ ≠ param_i params "sid") →
        rc < 0) := by
  unfold Conference.delSource
  by_cases hchk : chk_params params ["sid"] = none
  · rw [if_neg (fun hn => hn hchk)]
    dsimp only
    rw [h.find_source]
    cases hfind : c.sources_.find? fun s => s.source_id = param_i params "sid" with
    | none => exact ⟨-1, c, rfl, .refl, fun _ => by decide⟩
    | some s =>
      obtain ⟨before, after, hs, herase, hid⟩ := find_split hfind
      obtain ⟨gb, g, ga, hg, hgb, hdel, hnd⟩ := h.del_source hs (before ++ after)
      refine ⟨0, _, ?_, changes_one (.source_gone hs hg hgb), ?_⟩
      · simp only [ok_bind, herase]
        rw [hdel]
        simp only [ok_bind]
        rw [delete_ok (by exact hnd)]
        rfl
      · exact fun hno => absurd hno (not_refused hchk (by simp [hs]) (of_decide_eq_true hid))
  · rw [if_pos hchk]
    exact ⟨-1, c, rfl, .refl, fun _ => by decide⟩

/-! ## Sinks -/

/-- Graphs other than the first one that has the sink do not have it. -/
theorem Owned.other_graphs (h : Owned c) {g g' : Graph} {p : Ptr} (hg : g ∈ c.graphics_)
    (hp : p ∈ g.sinks_) (hg' : g' ∈ c.graphics_) (hne : g'.ptr ≠ g.ptr) : p ∉ g'.sinks_ := by
  intro hp'
  obtain ⟨gb, ga, hsplit⟩ := List.append_of_mem hg
  rw [hsplit] at hg'
  have hrest : g' ∈ gb ++ ga := by
    simp only [List.mem_append, List.mem_cons] at hg' ⊢
    rcases hg' with hm | heq | hm
    · exact Or.inl hm
    · exact absurd (by rw [heq]) hne
    · exact Or.inr hm
  have hone := h.subscribed_le_one p
  have hcount : 0 < ((gb ++ ga).flatMap Graph.sinks_).count p :=
    List.count_pos_iff.mpr (List.mem_flatMap.mpr ⟨g', hrest, hp'⟩)
  have hself : 0 < g.sinks_.count p := List.count_pos_iff.mpr hp
  unfold Conference.subscribed at hone
  rw [hsplit] at hone
  simp only [List.flatMap_append, List.flatMap_cons, List.count_append] at hone hcount
  omega

/-- The sink leaves the one graph that has it, so it leaves all graphs. -/
theorem Owned.free_del_sink (h : Owned c) (s : Sink) (sinks_ : List Sink) : ∃ rc,
    Conference.free_del_sink { c with sinks_ } s =
      .ok (rc, { c with sinks_, graphics_ := c.graphics_.map (Graph.without s.ptr) }) := by
  unfold Conference.free_del_sink
  rw [find_alive _ _ _ fun _ hg => h.graph_alive hg]
  cases hfind : c.graphics_.find? fun g => g.has_sink s.ptr with
  | none =>
    have hno : ∀ g ∈ c.graphics_, s.ptr ∉ g.sinks_ := by
      simpa [Graph.has_sink] using List.find?_eq_none.mp hfind
    have hmap : c.graphics_.map (Graph.without s.ptr) = c.graphics_ := by
      conv_rhs => rw [← List.map_id c.graphics_]
      refine List.map_congr_left fun g hg => ?_
      unfold Graph.without
      rw [List.erase_of_not_mem (hno g hg)]
      rfl
    refine ⟨-1, ?_⟩
    rw [hmap]
    rfl
  | some g =>
    have hg := List.mem_of_find?_eq_some hfind
    have hp : s.ptr ∈ g.sinks_ := by
      simpa [Graph.has_sink] using List.find?_some hfind
    have hmap : (c.graphics_.map fun g' => if g'.ptr = g.ptr then (g'.del_sink s.ptr).2 else g') =
        c.graphics_.map (Graph.without s.ptr) := by
      refine List.map_congr_left fun g' hg' => ?_
      by_cases hptr : g'.ptr = g.ptr
      · rw [if_pos hptr, graph_del_sink_eq]
        rfl
      · rw [if_neg hptr]
        unfold Graph.without
        rw [List.erase_of_not_mem (h.other_graphs hg hp hg' hptr)]
    refine ⟨0, ?_⟩
    rw [← hmap]
    rfl

theorem del_sink_of_free (h : c.type = .CT_FREE) (s : Sink) : c.del_sink s = c.free_del_sink s := by
  unfold Conference.del_sink
  rw [h]

theorem del_sink_of_director (h : c.type = .CT_DIRECTOR) (s : Sink) :
    c.del_sink s = c.director_del_sink s := by
  unfold Conference.del_sink
  rw [h]

/-- A delete of a sink is that of a free conference, and takes it out of the streams too. -/
theorem del_sink_of_free_del {s : Sink} {sinks_ : List Sink} {graphics_ : List Graph} {rc : Int}
    (hfree : Conference.free_del_sink { c with sinks_ } s = .ok (rc, { c with sinks_, graphics_ }))
    (hstreams : c.type = .CT_FREE → c.streams_ = [])
    (halive : ∀ stream ∈ c.streams_, stream.ptr ∉ c.mem.deleted) : ∃ rc,
    Conference.del_sink { c with sinks_ } s = .ok (rc, { c with
      sinks_
      graphics_
      streams_ := c.streams_.map fun stream => (stream.del_sink s.ptr).2 }) := by
  have hkind : c.type = .CT_FREE ∨ c.type = .CT_DIRECTOR := by
    cases c.type <;> simp
  rcases hkind with hkind | hkind
  · refine ⟨rc, ?_⟩
    rw [del_sink_of_free (by exact hkind), hfree, hstreams hkind]
    rfl
  · refine ⟨0, ?_⟩
    rw [del_sink_of_director (by exact hkind)]
    unfold Conference.director_del_sink
    rw [hfree]
    simp only [ok_bind]
    rw [find_alive _ _ _ halive]
    rfl

/-- The delete of a sink takes it out of every list. The list of sinks is not
used. -/
theorem Owned.del_sink (h : Owned c) (s : Sink) (sinks_ : List Sink) : ∃ rc,
    Conference.del_sink { c with sinks_ } s =
      .ok (rc, { c with
        sinks_
        graphics_ := c.graphics_.map (Graph.without s.ptr)
        streams_ := c.streams_.map fun stream => (stream.del_sink s.ptr).2 }) := by
  obtain ⟨rc, hfree⟩ := h.free_del_sink s sinks_
  exact del_sink_of_free_del hfree h.streams fun _ hs => h.stream_alive hs

theorem Owned.delSink (h : Owned c) (params results : KVS) : ∃ rc c',
    c.delSink params results = .ok (rc, results, c') ∧ Changes c c' ∧
      (chk_params params ["sinkid"] ≠ none ∨ (∀ s ∈ c.sinks_, s.id_ ≠ param_i params "sinkid") →
        rc < 0) := by
  unfold Conference.delSink
  by_cases hchk : chk_params params ["sinkid"] = none
  · rw [if_neg (fun hn => hn hchk)]
    dsimp only
    rw [find_alive _ _ _ fun _ hs => h.sink_alive hs]
    cases hfind : c.sinks_.find? fun s => s.sink_id = param_i params "sinkid" with
    | none => exact ⟨-1, c, rfl, .refl, fun _ => by decide⟩
    | some s =>
      obtain ⟨before, after, hs, herase, hid⟩ := find_split hfind
      obtain ⟨rc, hdel⟩ := h.del_sink s (before ++ after)
      refine ⟨0, _, ?_, changes_one (.sink_gone hs), ?_⟩
      · simp only [ok_bind, herase]
        rw [hdel]
        simp only [ok_bind]
        rw [delete_ok (by exact h.sink_alive (by simp [hs]))]
        rfl
      · exact fun hno => absurd hno (not_refused hchk (by simp [hs]) (of_decide_eq_true hid))
  · rw [if_pos hchk]
    exact ⟨-1, c, rfl, .refl, fun _ => by decide⟩

/-- A source and its graph have one id. -/
theorem Owned.graph_id (h : Owned c) (sid : Int) :
    (∃ s ∈ c.sources_, s.id_ = sid) ↔ ∃ g ∈ c.graphics_, g.id_ = sid := by
  have hids : c.graphics_.map Graph.id_ = c.sources_.map Source.id_ := by
    have hmap := congrArg (List.map Prod.snd) h.graphs
    rwa [List.map_map, List.map_map] at hmap
  have hmem : sid ∈ c.sources_.map Source.id_ ↔ sid ∈ c.graphics_.map Graph.id_ := by rw [hids]
  simpa only [List.mem_map] using hmem

theorem Owned.not_in_graph (h : Owned c) {g : Graph} (hg : g ∈ c.graphics_) :
    c.mem.next ∉ g.sinks_ := by
  intro hm
  have hzero := h.not_subscribed
  have hcount : 0 < (c.graphics_.flatMap Graph.sinks_).count c.mem.next :=
    List.count_pos_iff.mpr (List.mem_flatMap.mpr ⟨g, hg, hm⟩)
  unfold Conference.subscribed at hzero
  omega

/-- A change of one graph, written with the graph that was found. -/
theorem Owned.set_graph_found (h : Owned c) {g : Graph} (hg : g ∈ c.graphics_)
    (f : Graph → Graph) (sink_id_ : Int) :
    (c.adding sink_id_).set_graph g.ptr (fun _ => f g) = (c.set_graph g.ptr f).adding sink_id_ := by
  unfold Conference.set_graph Conference.adding
  congr 1
  refine List.map_congr_left fun g' hg' => ?_
  by_cases hptr : g'.ptr = g.ptr
  · rw [if_pos hptr, if_pos hptr, List.inj_on_of_nodup_map h.graphs_nodup hg' hg hptr]
  · rw [if_neg hptr, if_neg hptr]

theorem Owned.set_stream_found (h : Owned c) {s : Stream} (hs : s ∈ c.streams_)
    (f : Stream → Stream) (sink_id_ : Int) :
    (c.adding sink_id_).set_stream s.ptr (fun _ => f s) =
      (c.set_stream s.ptr f).adding sink_id_ := by
  unfold Conference.set_stream Conference.adding
  congr 1
  refine List.map_congr_left fun s' hs' => ?_
  by_cases hptr : s'.ptr = s.ptr
  · rw [if_pos hptr, if_pos hptr, List.inj_on_of_nodup_map h.streams_nodup hs' hs hptr]
  · rw [if_neg hptr, if_neg hptr]

/-- A live source: its graph takes the new sink. -/
theorem Owned.add_sink_to_graph (h : Owned c) {sid : Int} {g : Graph}
    (hfind : c.graphics_.find? (fun g => g.id_ = sid) = some g) (s : Sink)
    (hs : s.ptr = c.mem.next) (sink_id_ : Int) :
    (c.adding sink_id_).add_sink_to_source sid s =
      .ok (0, (c.subscribe (.graph g.ptr) s.ptr).adding sink_id_) := by
  have hg := List.mem_of_find?_eq_some hfind
  have hid : g.id_ = sid := by simpa using List.find?_some hfind
  obtain ⟨src, hsrc⟩ : ∃ src, c.sources_.find? (fun s => s.source_id = sid) = some src := by
    obtain ⟨src, hsrc, hsid⟩ := (h.graph_id sid).mpr ⟨g, hg, hid⟩
    exact Option.isSome_iff_exists.mp (List.find?_isSome.mpr ⟨src, hsrc, decide_eq_true hsid⟩)
  have hno : g.has_sink s.ptr = false := by
    rw [hs]
    simpa [Graph.has_sink] using h.not_in_graph hg
  have hsources : (c.adding sink_id_).find_source sid = .ok (some src) := by
    rw [← hsrc]
    exact find_alive _ _ _ fun _ hs => h.source_alive hs
  have hgraphs : (c.adding sink_id_).find_graph sid = .ok (some g) := by
    rw [← hfind]
    exact find_alive _ _ _ fun _ hg => h.graph_alive hg
  unfold Conference.add_sink_to_source
  simp only [hsources, hgraphs, ok_bind, Option.isNone_some, Bool.false_eq_true, if_false,
    Graph.add_sink, hno, pure_eq_ok]
  rw [h.set_graph_found hg fun g => { g with sinks_ := g.sinks_ ++ [s.ptr] }]
  rfl

/-- No live source: the assert fails. -/
theorem Owned.add_sink_to_nothing (h : Owned c) {sid : Int}
    (hno : ∀ src ∈ c.sources_, src.id_ ≠ sid) (s : Sink) (sink_id_ : Int) :
    (c.adding sink_id_).add_sink_to_source sid s = .error .assertFailed := by
  have hsources : (c.adding sink_id_).find_source sid = .ok none := by
    have hfind : c.sources_.find? (fun s => s.source_id = sid) = none :=
      List.find?_eq_none.mpr fun src hsrc hid => hno src hsrc (of_decide_eq_true hid)
    rw [← hfind]
    exact find_alive _ _ _ fun _ hs => h.source_alive hs
  unfold Conference.add_sink_to_source
  simp only [hsources, ok_bind, Option.isNone_none, if_true]

/-- The two ways of an odd id: a graph takes the sink, or the assert fails. -/
theorem Owned.add_sink_odd (h : Owned c) {sid : Int} (hodd : is_source_id sid = true)
    (s : Sink) (hs : s.ptr = c.mem.next) (sink_id_ : Int) :
    (∃ target, c.target sid = some target ∧ (∃ src ∈ c.sources_, src.id_ = sid) ∧
      (c.adding sink_id_).add_sink_to_source sid s =
        .ok (0, (c.subscribe target s.ptr).adding sink_id_)) ∨
    (c.target sid = none ∧ (∀ src ∈ c.sources_, src.id_ ≠ sid) ∧
      (c.adding sink_id_).add_sink_to_source sid s = .error .assertFailed) := by
  have hmix : ¬ (c.type = .CT_DIRECTOR ∧ sid = -1) := by
    rintro ⟨-, rfl⟩
    exact absurd hodd (by decide)
  unfold Conference.target
  rw [if_neg hmix, if_pos hodd]
  cases hfind : c.graphics_.find? fun g => g.id_ = sid with
  | some g =>
    have hsrc := (h.graph_id sid).mpr
      ⟨g, List.mem_of_find?_eq_some hfind, of_decide_eq_true (List.find?_some hfind :)⟩
    exact Or.inl ⟨_, rfl, hsrc, h.add_sink_to_graph hfind s hs sink_id_⟩
  | none =>
    have hno : ∀ src ∈ c.sources_, src.id_ ≠ sid := by
      intro src hsrc hid
      obtain ⟨g, hg, hgid⟩ := (h.graph_id sid).mp ⟨src, hsrc, hid⟩
      exact absurd (decide_eq_true hgid) (List.find?_eq_none.mp hfind g hg)
    exact Or.inr ⟨rfl, hno, h.add_sink_to_nothing hno s sink_id_⟩

/-- An id that is not odd: a stream with a publisher takes the sink. -/
theorem Owned.add_sink_even (h : Owned c) {sid : Int} (hmix : sid ≠ -1)
    (heven : is_source_id sid = false) (s : Sink) (sink_id_ : Int) :
    (∃ target, c.target sid = some target ∧
      (c.adding sink_id_).director_add_sink sid s =
        .ok (0, (c.subscribe target s.ptr).adding sink_id_)) ∨
    (c.target sid = none ∧
      (c.adding sink_id_).director_add_sink sid s = .ok (-1, c.adding sink_id_)) := by
  have hstreams : (c.adding sink_id_).find_stream sid =
      .ok (c.streams_.find? fun s => s.stream_id = sid) :=
    find_alive _ _ _ fun _ hs => h.stream_alive hs
  unfold Conference.target Conference.director_add_sink
  rw [if_neg (fun hn => hmix hn.2), if_neg (by rw [heven]; decide), if_neg hmix,
    if_neg (by rw [heven]; decide), hstreams]
  simp only [ok_bind]
  cases hfind : c.streams_.find? fun s => s.stream_id = sid with
  | none => exact Or.inr ⟨rfl, rfl⟩
  | some stream =>
    cases hpub : stream.support_publisher with
    | false =>
      refine Or.inr ⟨by simp [hpub], ?_⟩
      simp [hpub]
    | true =>
      refine Or.inl ⟨.stream stream.ptr, by simp [hpub], ?_⟩
      dsimp only
      rw [if_pos hpub, stream_add_sink_eq hpub]
      have hset := h.set_stream_found (List.mem_of_find?_eq_some hfind)
        (fun t => { t with sinks_ := t.sinks_ ++ [s.ptr] }) sink_id_
      simp only [ok_bind, hset]
      rfl

/-- What `add_sink` does with the id of a source, a stream, or the mix. -/
theorem Owned.add_sink (h : Owned c) (sid : Int) (s : Sink) (hs : s.ptr = c.mem.next)
    (sink_id_ : Int) :
    (∃ target, c.target sid = some target ∧
      (is_source_id sid = true → ∃ src ∈ c.sources_, src.id_ = sid) ∧
      (c.adding sink_id_).add_sink sid s =
        .ok (0, (c.subscribe target s.ptr).adding sink_id_)) ∨
    (c.target sid = none ∧ is_source_id sid = false ∧
      (c.adding sink_id_).add_sink sid s = .ok (-1, c.adding sink_id_)) ∨
    (c.target sid = none ∧ (c.adding sink_id_).add_sink sid s = .error .assertFailed ∧
      (is_source_id sid = true → ∀ src ∈ c.sources_, src.id_ ≠ sid) ∧
      (c.type = .CT_DIRECTOR → is_source_id sid = true)) := by
  have hkind : c.type = .CT_FREE ∨ c.type = .CT_DIRECTOR := by cases c.type <;> simp
  rcases hkind with hkind | hkind
  · have htype : (c.adding sink_id_).type = .CT_FREE := hkind
    unfold Conference.add_sink
    rw [htype]
    dsimp only
    unfold Conference.free_add_sink
    cases hodd : is_source_id sid with
    | true =>
      rw [if_pos rfl]
      rcases h.add_sink_odd hodd s hs sink_id_ with ⟨t, ht, hsrc, hok⟩ | ⟨ht, hno, hfail⟩
      · exact Or.inl ⟨t, ht, fun _ => hsrc, hok⟩
      · exact Or.inr (Or.inr ⟨ht, hfail, fun _ => hno, fun _ => rfl⟩)
    | false =>
      rw [if_neg (by decide)]
      refine Or.inr (Or.inr ⟨?_, rfl, fun hn => absurd hn (by decide), fun hn => ?_⟩)
      · simp [Conference.target, hkind, hodd, h.streams hkind]
      · rw [hkind] at hn
        cases hn
  · have htype : (c.adding sink_id_).type = .CT_DIRECTOR := hkind
    unfold Conference.add_sink
    rw [htype]
    dsimp only
    by_cases hmix : sid = -1
    · refine Or.inl ⟨.mix, ?_, fun hodd => ?_, ?_⟩
      · simp [Conference.target, hkind, hmix]
      · rw [hmix] at hodd
        exact absurd hodd (by decide)
      · unfold Conference.director_add_sink
        rw [if_pos hmix]
        rfl
    · cases hodd : is_source_id sid with
      | true =>
        have hsource : (c.adding sink_id_).director_add_sink sid s =
            (c.adding sink_id_).add_sink_to_source sid s := by
          unfold Conference.director_add_sink
          rw [if_neg hmix, if_pos hodd]
        rw [hsource]
        rcases h.add_sink_odd hodd s hs sink_id_ with ⟨t, ht, hsrc, hok⟩ | ⟨ht, hno, hfail⟩
        · exact Or.inl ⟨t, ht, fun _ => hsrc, hok⟩
        · exact Or.inr (Or.inr ⟨ht, hfail, fun _ => hno, fun _ => rfl⟩)
      | false =>
        rcases h.add_sink_even hmix hodd s sink_id_ with ⟨t, ht, hok⟩ | ⟨ht, hok⟩
        · exact Or.inl ⟨t, ht, fun hn => absurd hn (by decide), hok⟩
        · exact Or.inr (Or.inl ⟨ht, rfl, hok⟩)

/-- The command names a payload, and the conference takes it as it is. -/
def Conference.names_payload (c : Conference) (params : KVS) : Prop :=
  c.type = .CT_DIRECTOR ∧ chk_params params ["payload"] = none ∧ param_i params "payload" ≠ -1

/-- The payload is that of the command, or of a source or stream that lives. -/
theorem Owned.sink_payload (h : Owned c) (params : KVS) :
    (c.names_payload params ∧
      c.sink_payload params = .ok (some (param_i params "payload"))) ∨
    (¬ c.names_payload params ∧ ∃ payload, c.sink_payload params = .ok payload ∧
      (payload ≠ none → c.type = .CT_FREE ∨ is_source_id (param_i params "sid") = true →
        ∃ src ∈ c.sources_, src.id_ = param_i params "sid")) := by
  have hsource : ∀ sid, (c.sources_.find? fun s => s.source_id = sid).map Source.payload_type ≠
      none → ∃ src ∈ c.sources_, src.id_ = sid := by
    intro sid hne
    cases hfind : c.sources_.find? fun s => s.source_id = sid with
    | none => exact absurd (by rw [hfind]; rfl) hne
    | some src =>
      exact ⟨src, List.mem_of_find?_eq_some hfind,
        of_decide_eq_true (p := src.id_ = sid) (List.find?_some hfind :)⟩
  unfold Conference.sink_payload
  simp only [h.find_source, h.find_stream, ok_bind, pure_eq_ok]
  rcases hkind : c.type with _ | _
  · refine Or.inr ⟨fun hn => ?_, _, rfl, fun hne _ => hsource _ hne⟩
    have hdirector := hn.1
    rw [hkind] at hdirector
    cases hdirector
  · dsimp only
    by_cases hchk : chk_params params ["payload"] = none
    · rw [if_pos hchk]
      by_cases hpay : param_i params "payload" = -1
      · rw [if_pos hpay]
        refine Or.inr ⟨fun hn => hn.2.2 hpay, ?_⟩
        cases hodd : is_source_id (param_i params "sid") with
        | true => exact ⟨_, rfl, fun hne _ => hsource _ hne⟩
        | false => exact ⟨_, rfl, fun _ hn => by rcases hn with hn | hn <;> cases hn⟩
      · rw [if_neg hpay]
        exact Or.inl ⟨⟨hkind, hchk, hpay⟩, rfl⟩
    · rw [if_neg hchk, if_pos rfl]
      refine Or.inr ⟨fun hn => hchk hn.2.1, ?_⟩
      cases hodd : is_source_id (param_i params "sid") with
      | true => exact ⟨_, rfl, fun hne _ => hsource _ hne⟩
      | false => exact ⟨_, rfl, fun _ hn => by rcases hn with hn | hn <;> cases hn⟩

/-- The command that trips the assert: with a payload of its own, it names a
source that does not live. -/
def Conference.sink_trips (c : Conference) (params : KVS) : Prop :=
  chk_params params ["sid"] = none ∧ c.names_payload params ∧
    is_sink_payload (param_i params "payload") = true ∧
    is_source_id (param_i params "sid") = true ∧
    ∀ src ∈ c.sources_, src.id_ ≠ param_i params "sid"

/-- The end of `addSink`, with the payload at hand. -/
theorem addSink_payload (env : Env) {params : KVS} (results : KVS) {payload : Int}
    (hchk : chk_params params ["sid"] = none)
    (hpay : c.sink_payload params = .ok (some payload))
    (hkind : is_sink_payload payload = true) : c.addSink env params results = do
      let s := c.new_sink env payload params
      let (rc, c') ← (c.adding (next_sink_id c.sink_id_)).add_sink (param_i params "sid") s
      if rc < 0 then
        let c' ← c'.delete s.ptr
        return (-1, results, c')
      else
        return (0, answer_of env "sinkid" s.sink_id results,
          { c' with sinks_ := c'.sinks_ ++ [s] }) := by
  unfold Conference.addSink
  rw [if_neg (fun hn => hn hchk)]
  dsimp only
  rw [hpay]
  simp only [ok_bind, hkind, Bool.not_true, Bool.false_eq_true, if_false]
  rfl

/-- A command with a payload trips the assert, or ends. -/
theorem Owned.addSink_ends (h : Owned c) (hodd : ∀ s ∈ c.sources_, is_source_id s.id_ = true)
    (env : Env) (params results : KVS) {payload : Int}
    (hchk : chk_params params ["sid"] = none)
    (hpay : c.sink_payload params = .ok (some payload))
    (hlive : c.names_payload params ∧ payload = param_i params "payload" ∨
      ¬ c.names_payload params ∧ (c.type = .CT_FREE ∨ is_source_id (param_i params "sid") = true →
        ∃ src ∈ c.sources_, src.id_ = param_i params "sid")) :
    (c.sink_trips params ∧ c.addSink env params results = .error .assertFailed) ∨
    (¬ c.sink_trips params ∧ ∃ rc results' c', c.addSink env params results =
        .ok (rc, results', c') ∧ Effect c (.addSink env params) c' ∧
      (¬ c.takes_sink params → rc < 0)) := by
  cases hkind : is_sink_payload payload with
  | false =>
    refine Or.inr ⟨?_, -1, KVS.set "info" "NOT support payload type" results,
      c.counted, ?_, .refused env params .refl, fun _ => by decide⟩
    · rintro ⟨-, hn, hk, -⟩
      rcases hlive with ⟨-, rfl⟩ | ⟨hno, -⟩
      · rw [hkind] at hk
        cases hk
      · exact hno hn
    · unfold Conference.addSink
      rw [if_neg (fun hn => hn hchk)]
      dsimp only
      rw [hpay]
      simp only [ok_bind, hkind, Bool.not_false, if_true]
      rfl
  | true =>
    rw [addSink_payload env results hchk hpay hkind]
    rcases h.add_sink (param_i params "sid") (c.new_sink env payload params) rfl
      (next_sink_id c.sink_id_) with ⟨t, ht, hsrc, hok⟩ | ⟨ht, heven, hok⟩ |
      ⟨ht, hfail, hno, hdirector⟩
    · refine Or.inr ⟨?_, 0, answer_of env "sinkid" (next_sink_id c.sink_id_) results, _, ?_,
        .addSink env params hchk hpay hkind ht,
        fun hno => absurd ⟨payload, t, hchk, hpay, hkind, ht⟩ hno⟩
      · rintro ⟨-, -, -, hodd, hno⟩
        obtain ⟨src, hmem, hid⟩ := hsrc hodd
        exact hno src hmem hid
      · simp only [hok, ok_bind, Int.lt_irrefl, if_false, pure_eq_ok]
        rfl
    · refine Or.inr ⟨?_, -1, results, _, ?_,
        .refused env params (changes_one .lost), fun _ => by decide⟩
      · rintro ⟨-, -, -, hodd, -⟩
        rw [heven] at hodd
        cases hodd
      · simp only [hok, ok_bind]
        rw [if_pos (by decide), delete_ok (by exact h.accounts.not_deleted)]
        rfl
    · refine Or.inl ⟨⟨hchk, ?_⟩, ?_⟩
      · rcases hlive with ⟨hn, hpayload⟩ | ⟨-, hlive⟩
        · have hsource := hdirector hn.1
          exact ⟨hn, hpayload ▸ hkind, hsource, hno hsource⟩
        · have hsource : is_source_id (param_i params "sid") = true := by
            rcases hfree : c.type with _ | _
            · obtain ⟨src, hsrc, hid⟩ := hlive (Or.inl hfree)
              rw [← hid]
              exact hodd src hsrc
            · exact hdirector hfree
          obtain ⟨src, hsrc, hid⟩ := hlive (Or.inr hsource)
          exact absurd hid (hno hsource src hsrc)
      · simp only [hfail, error_bind]

/-- A command that adds a sink trips the assert, or ends. -/
theorem Owned.addSink (h : Owned c) (hodd : ∀ s ∈ c.sources_, is_source_id s.id_ = true)
    (env : Env) (params results : KVS) :
    (c.sink_trips params ∧ c.addSink env params results = .error .assertFailed) ∨
    (¬ c.sink_trips params ∧ ∃ rc results' c', c.addSink env params results =
        .ok (rc, results', c') ∧ Effect c (.addSink env params) c' ∧
      (¬ c.takes_sink params → rc < 0)) := by
  by_cases hchk : chk_params params ["sid"] = none
  · rcases h.sink_payload params with ⟨hn, hpay⟩ | ⟨hn, payload, hpay, hlive⟩
    · exact h.addSink_ends hodd env params results hchk hpay (Or.inl ⟨hn, rfl⟩)
    · cases payload with
      | none =>
        refine Or.inr ⟨fun ht => hn ht.2.1, -1, results, c, ?_, .changes .refl, fun _ => by decide⟩
        unfold Conference.addSink
        rw [if_neg (fun hn => hn hchk)]
        dsimp only
        rw [hpay]
        rfl
      | some payload =>
        exact h.addSink_ends hodd env params results hchk hpay
          (Or.inr ⟨hn, hlive (Option.some_ne_none _)⟩)
  · unfold Conference.addSink
    rw [if_pos hchk]
    exact Or.inr ⟨fun hn => hchk hn.1, _, _, _, rfl, .changes .refl, fun _ => by decide⟩

end zonekey_mcu.conference
