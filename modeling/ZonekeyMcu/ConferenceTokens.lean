-- The tokens that wait in a conference. No call on the conference touches them, and its
-- destructor answers them all.
import ZonekeyMcu.ConferenceLoop
import ZonekeyMcu.Lib.Returns

open returns memory zonekey_mcu.members zonekey_mcu.options zonekey_mcu.director

namespace zonekey_mcu.conference

/-- The tokens in `reg_notify_tokens_`, in the order in which the destructor answers them. -/
def Conference.tokens (c : Conference) : List Token := c.reg_notify_tokens_.flatMap (·.2)

section

variable {tokens : List (String × List Token)} {c : Conference}

/-! ## The methods that a class overrides -/

/-- The tokens of the conference are these. -/
def Waits (tokens : List (String × List Token)) (c : Conference) : Prop :=
  c.reg_notify_tokens_ = tokens

theorem delete_waits (h : Waits tokens c) (p : Ptr) : Returns (c.delete p) (Waits tokens) := by
  unfold Conference.delete
  exact returns_bind fun _ => returns_pure h

theorem del_source_waits (h : Waits tokens c) (s : Source) :
    Returns (c.del_source s) fun r => Waits tokens r.2 := by
  unfold Conference.del_source
  apply returns_bind
  intro g
  cases g with
  | none => exact returns_pure h
  | some g =>
    have hgone :
        Waits tokens { c with graphics_ := c.graphics_.eraseP fun g => g.source_ = s.ptr } :=
      h
    exact (delete_waits hgone g.ptr).bind fun _ h => returns_pure h

theorem add_sink_to_source_waits (h : Waits tokens c) (sid : Int) (s : Sink) :
    Returns (c.add_sink_to_source sid s) fun r => Waits tokens r.2 := by
  unfold Conference.add_sink_to_source
  apply returns_bind
  intro source
  split
  · exact returns_error
  · apply returns_bind
    intro g
    cases g with
    | none => exact returns_pure h
    | some g => exact returns_bind fun _ => returns_pure h

theorem add_sink_waits (h : Waits tokens c) (sid : Int) (s : Sink) :
    Returns (c.add_sink sid s) fun r => Waits tokens r.2 := by
  unfold Conference.add_sink
  split
  · unfold Conference.free_add_sink
    split
    · exact add_sink_to_source_waits h sid s
    · exact returns_error
  · unfold Conference.director_add_sink
    split
    · exact returns_ok h
    · split
      · exact add_sink_to_source_waits h sid s
      · apply returns_bind
        intro stream
        cases stream with
        | none => exact returns_pure h
        | some stream =>
          dsimp only
          split
          · exact returns_bind fun _ => returns_pure h
          · exact returns_pure h

theorem del_sink_waits (h : Waits tokens c) (s : Sink) :
    Returns (c.del_sink s) fun r => Waits tokens r.2 := by
  have hfree : Returns (c.free_del_sink s) fun r => Waits tokens r.2 := by
    unfold Conference.free_del_sink
    apply returns_bind
    intro g
    cases g with
    | none => exact returns_pure h
    | some g => exact returns_pure h
  unfold Conference.del_sink
  split
  · exact hfree
  · unfold Conference.director_del_sink
    exact hfree.bind fun r h => returns_bind fun _ => returns_pure h

theorem add_stream_waits (h : Waits tokens c) (s : Stream) (params : KVS) :
    Returns (c.add_stream s params) fun r => Waits tokens r.2.2 := by
  unfold Conference.add_stream
  split
  · exact returns_error
  · exact returns_bind fun _ => returns_pure h

theorem del_stream_waits (h : Waits tokens c) (s : Stream) :
    Returns (c.del_stream s) fun r => Waits tokens r.2 := by
  unfold Conference.del_stream
  split
  · exact returns_error
  · exact returns_bind fun _ => returns_pure h

/-! ## The commands -/

theorem addSource_waits (h : Waits tokens c) (env : Env) (params results : KVS) :
    Returns (c.addSource env params results) fun r => Waits tokens r.2.2 := by
  unfold Conference.addSource
  split
  · exact returns_ok h
  · dsimp only
    split
    · exact returns_ok h
    · split
      · have hadd : Waits tokens (Conference.add_source { c with mem := c.mem.alloc.2 }
            (Source.new env c.mem.alloc.1 c.sid_ (param_i params "payload")
              (param_or_empty params "desc"))).2 := h
        exact (delete_waits hadd _).bind fun _ h => returns_pure h
      · exact returns_pure h

theorem delSource_waits (h : Waits tokens c) (params results : KVS) :
    Returns (c.delSource params results) fun r => Waits tokens r.2.2 := by
  unfold Conference.delSource
  split
  · exact returns_ok h
  · apply returns_bind
    intro s
    cases s with
    | none => exact returns_pure h
    | some s =>
      have hgone : Waits tokens { c with
        sources_ := c.sources_.eraseP fun s => s.source_id = param_i params "sid" } := h
      exact (del_source_waits hgone s).bind fun r h =>
        (delete_waits h s.ptr).bind fun _ h => returns_pure h

theorem addSink_waits (h : Waits tokens c) (env : Env) (params results : KVS) :
    Returns (c.addSink env params results) fun r => Waits tokens r.2.2 := by
  unfold Conference.addSink
  split
  · exact returns_ok h
  · apply returns_bind
    intro payload
    cases payload with
    | none => exact returns_pure h
    | some payload =>
      dsimp only
      split
      · exact returns_pure h
      · have hadding : Waits tokens { c with
          sink_id_ := next_sink_id c.sink_id_
          mem := c.mem.alloc.2 } := h
        refine (add_sink_waits hadding _ _).bind fun r h => ?_
        obtain ⟨rc, c⟩ := r
        dsimp only
        split
        · exact (delete_waits h _).bind fun _ h => returns_pure h
        · exact returns_pure h

theorem delSink_waits (h : Waits tokens c) (params results : KVS) :
    Returns (c.delSink params results) fun r => Waits tokens r.2.2 := by
  unfold Conference.delSink
  split
  · exact returns_ok h
  · apply returns_bind
    intro sink
    cases sink with
    | none => exact returns_pure h
    | some sink =>
      have hgone : Waits tokens { c with
        sinks_ := c.sinks_.eraseP fun s => s.sink_id = param_i params "sinkid" } := h
      exact (del_sink_waits hgone sink).bind fun r h =>
        (delete_waits h sink.ptr).bind fun _ h => returns_pure h

theorem addStreamWith_waits (h : Waits tokens c) (env : Env) (sink publisher : Bool)
    (params results : KVS) :
    Returns (c.addStreamWith env sink publisher params results) fun r => Waits tokens r.2.2 := by
  unfold Conference.addStreamWith
  split
  · exact returns_error
  · split
    · exact returns_ok h
    · dsimp only
      split
      · exact returns_ok h
      · unfold Conference.addStreamOf
        dsimp only
        apply returns_bind
        intro stream
        have hadding : Waits tokens { c with mem := c.mem.alloc.2 } := h
        refine (add_stream_waits hadding stream params).bind fun r h => ?_
        obtain ⟨rc, stream, c⟩ := r
        dsimp only
        split
        · exact (delete_waits h _).bind fun _ h => returns_pure h
        · exact returns_pure h

theorem delStream_waits (h : Waits tokens c) (params results : KVS) :
    Returns (c.delStream params results) fun r => Waits tokens r.2.2 := by
  unfold Conference.delStream
  split
  · exact returns_ok h
  · apply returns_bind
    intro s
    cases s with
    | none => exact returns_pure h
    | some s =>
      have hgone : Waits tokens { c with
        streams_ := c.streams_.eraseP fun s => s.stream_id = param_i params "streamid" } := h
      exact (del_stream_waits hgone s).bind fun r h =>
        (delete_waits h s.ptr).bind fun _ h => returns_pure h

theorem setParams_waits (h : Waits tokens c) (params results : KVS) :
    Returns (c.setParams params results) fun r => Waits tokens r.2.2 := by
  have hdesc : Returns (c.sp_v_desc params results) fun r => Waits tokens r.2.2 := by
    unfold Conference.sp_v_desc
    split
    · apply returns_bind
      intro s
      cases s with
      | none => exact returns_pure h
      | some s => exact returns_bind fun _ => returns_pure h
    · exact returns_ok h
  have hzorder : Returns (c.sp_v_zorder params results) fun r => Waits tokens r.2.2 := by
    unfold Conference.sp_v_zorder
    split
    · apply returns_bind
      intro s
      cases s with
      | none => exact returns_pure h
      | some s =>
        dsimp only
        split
        · exact returns_pure h
        · exact returns_bind fun _ => returns_pure h
    · exact returns_ok h
  have hencoder : Returns (c.sp_v_encoder params results) fun r => Waits tokens r.2.2 := by
    unfold Conference.sp_v_encoder
    split <;> exact returns_ok h
  unfold Conference.setParams
  split
  · exact returns_ok h
  · split
    · exact returns_ok h
    · dsimp only
      split
      · exact hdesc
      · split
        · exact hzorder
        · split
          · exact hencoder
          · exact returns_ok h

theorem vs_exchange_position_waits (h : Waits tokens c) (id1 id2 : Int) :
    Returns (c.vs_exchange_position id1 id2) fun r => Waits tokens r.2 := by
  unfold Conference.vs_exchange_position
  split
  · exact returns_ok h
  · refine returns_bind fun s1 => returns_bind fun s2 => ?_
    split
    · split
      · dsimp only
        split
        · exact returns_bind fun _ => returns_bind fun _ => returns_pure h
        · exact returns_pure h
      · exact returns_pure h
    · exact returns_pure h

theorem getParams_waits (h : Waits tokens c) (texts : Texts) (params results : KVS) :
    Returns (c.getParams texts params results) fun r => Waits tokens r.2.2 := by
  have hdesc : Returns (c.gp_v_desc params results) fun r => Waits tokens r.2.2 := by
    unfold Conference.gp_v_desc
    split
    · exact returns_ok h
    · apply returns_bind
      intro s
      cases s with
      | none => exact returns_pure h
      | some s =>
        dsimp only
        split <;> exact returns_pure h
  unfold Conference.getParams
  split
  · exact returns_ok h
  · split
    · exact returns_ok h
    · dsimp only
      split
      · exact hdesc
      · split
        · exact returns_bind fun _ => returns_pure h
        · split
          · exact returns_ok h
          · split
            · exact returns_ok h
            · split
              · exact returns_bind fun _ => returns_pure h
              · exact returns_ok h

/-! ## The turn in the loop, and the end -/

section

variable {α : Type} {ptr : α → Ptr} {del : Conference → α → Except Fault (Int × Conference)}

theorem sweep_waits {death : α → Bool} {run : α → α}
    (hdel : ∀ {c}, Waits tokens c → ∀ x, Returns (del c x) fun r => Waits tokens r.2)
    (xs : List α) (h : Waits tokens c) :
    Returns (sweep ptr death run del xs c) fun r => Waits tokens r.2 := by
  induction xs generalizing c with
  | nil => exact returns_ok h
  | cons x xs ih =>
    unfold sweep
    split
    · exact returns_error
    · split
      · exact (hdel h x).bind fun r h => (delete_waits h (ptr x)).bind fun _ h => ih h
      · exact (ih h).bind fun r h => returns_pure h

theorem delete_members_waits
    (hdel : ∀ {c}, Waits tokens c → ∀ x, Returns (del c x) fun r => Waits tokens r.2)
    (xs : List α) (h : Waits tokens c) :
    Returns (delete_members ptr del xs c) (Waits tokens) := by
  induction xs generalizing c with
  | nil => exact returns_ok h
  | cons x xs ih =>
    unfold delete_members
    exact (hdel h x).bind fun r h => (delete_waits h (ptr x)).bind fun _ h => ih h

end

theorem run_once_waits (h : Waits tokens c) (env : Env) :
    Returns (c.run_once env) (Waits tokens) := by
  have hsources : Returns (c.sweep_sources env) (Waits tokens) := by
    unfold Conference.sweep_sources
    exact (sweep_waits del_source_waits c.sources_ h).bind fun r h => returns_pure h
  have hsinks : ∀ {c}, Waits tokens c → Returns (c.sweep_sinks env) (Waits tokens) := by
    intro c h
    unfold Conference.sweep_sinks
    exact (sweep_waits del_sink_waits c.sinks_ h).bind fun r h => returns_pure h
  have hstreams : ∀ {c}, Waits tokens c → Returns (c.sweep_streams env) (Waits tokens) := by
    intro c h
    unfold Conference.sweep_streams
    exact (sweep_waits del_stream_waits c.streams_ h).bind fun r h => returns_pure h
  unfold Conference.run_once
  exact hsources.bind fun _ h => (hsinks h).bind fun _ h => (hstreams h).bind fun _ h =>
    returns_pure h

/-- The destructor answers the tokens that wait in the conference. -/
theorem destroy_answers (c : Conference) : Returns c.destroy fun r => r.2 = c.tokens := by
  have hgraphs : ∀ {c' : Conference}, Waits c.reg_notify_tokens_ c' →
      Returns c'.delete_graphs (Waits c.reg_notify_tokens_) := by
    intro c' h
    unfold Conference.delete_graphs
    exact returns_bind fun _ => returns_pure h
  have hsinks : ∀ {c' : Conference}, Waits c.reg_notify_tokens_ c' →
      Returns c'.delete_sinks (Waits c.reg_notify_tokens_) := by
    intro c' h
    unfold Conference.delete_sinks
    exact (delete_members_waits del_sink_waits c'.sinks_ h).bind fun _ h => returns_pure h
  have hstreams : ∀ {c' : Conference}, Waits c.reg_notify_tokens_ c' →
      Returns c'.delete_streams (Waits c.reg_notify_tokens_) := by
    intro c' h
    unfold Conference.delete_streams
    exact (delete_members_waits del_stream_waits c'.streams_ h).bind fun _ h => returns_pure h
  have hsources : ∀ {c' : Conference}, Waits c.reg_notify_tokens_ c' →
      Returns c'.delete_sources (Waits c.reg_notify_tokens_) := by
    intro c' h
    unfold Conference.delete_sources
    exact (delete_members_waits del_source_waits c'.sources_ h).bind fun _ h => returns_pure h
  have hself : Waits c.reg_notify_tokens_ c := rfl
  have hend : ∀ {c' : Conference}, Waits c.reg_notify_tokens_ c' →
      c'.reg_notify_tokens_.flatMap (·.2) = c.tokens := by
    intro c' h
    rw [h]
    rfl
  unfold Conference.destroy
  split
  · unfold Conference.free_destructor
    refine Returns.bind ?_ fun c' (h : Waits _ c') => returns_pure (hend h)
    exact (hgraphs hself).bind fun _ h => (hsinks h).bind fun _ h => hsources h
  · unfold Conference.director_destructor
    refine Returns.bind ?_ fun c' (h : Waits _ c') => returns_pure (hend h)
    refine (hgraphs hself).bind fun c' h => ?_
    have hnone : Waits c.reg_notify_tokens_ { c' with graphics_ := [] } := h
    exact (hsinks hnone).bind fun _ h => (hstreams h).bind fun _ h => hsources h

end

end zonekey_mcu.conference
