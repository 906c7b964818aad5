-- The counters of the ids. A record keeps how many ids each counter of a conference has given
-- out, and how many before that of each member, so the ids of the members are known from it.
import ZonekeyMcu.ConferenceRuns
import ZonekeyMcu.Lib.CyclicIds

open cyclic_ids memory zonekey_mcu.members zonekey_mcu.options

namespace zonekey_mcu.conference

/-! ## The counters -/

/-- The odd numbers from 1 up to 0x6fffffff. -/
def source_ids : Cycle := ⟨1, 2, 0, 0x38000000, by decide, by decide⟩

/-- The numbers from 1 up to 0x70000000, and 0 after them. -/
def sink_ids : Cycle := ⟨0, 1, 1, 0x70000001, Int.one_ne_zero, by decide⟩

/-- The even numbers from 2 up to 0x7efffffe, and 0 after them. -/
def stream_ids : Cycle := ⟨0, 2, 1, 0x3f800000, by decide, by decide⟩

theorem next_sid_nth (k : Nat) : next_sid (source_ids.nth k) = source_ids.nth (k + 1) := by
  rw [nth_succ]
  unfold next_sid source_ids Cycle.nth
  dsimp only
  split <;> split <;> omega

theorem next_sink_id_nth (k : Nat) : next_sink_id (sink_ids.nth k) = sink_ids.nth (k + 1) := by
  rw [nth_succ]
  unfold next_sink_id sink_ids Cycle.nth
  dsimp only
  split <;> split <;> omega

theorem next_stream_id_nth (k : Nat) :
    next_stream_id (stream_ids.nth k) = stream_ids.nth (k + 1) := by
  rw [nth_succ]
  unfold next_stream_id stream_ids Cycle.nth
  dsimp only
  split <;> split <;> omega

theorem next_sid_moves (sid : Int) : next_sid sid ≠ sid := by
  unfold next_sid
  split <;> omega

theorem next_sink_id_moves (sink_id : Int) : next_sink_id sink_id ≠ sink_id := by
  unfold next_sink_id
  split <;> omega

theorem next_stream_id_moves (stream_id : Int) : next_stream_id stream_id ≠ stream_id := by
  unfold next_stream_id
  split <;> omega

/-! ## The record of a conference -/

/-- The ids that were taken in a conference, for each kind of member. -/
structure Record where
  sources : Tally Ptr
  sinks : Tally Ptr
  streams : Tally Ptr

def Record.start : Record := ⟨.start, .start, .start⟩

/-- The record after the conference `c` has become `c'`. A counter that has moved has given out
one id, and the objects from `c.mem.next` on are new. -/
def Record.next (r : Record) (c c' : Conference) : Record where
  sources := r.sources.next (c'.sid_ ≠ c.sid_) (c.mem.next ≤ ·)
  sinks := r.sinks.next (c'.sink_id_ ≠ c.sink_id_) (c.mem.next ≤ ·)
  streams := r.streams.next (c'.stream_id_ ≠ c.stream_id_) (c.mem.next ≤ ·)

/-- The counters and the ids of the members are those that the record tells. A new sink gets the
id after the one in the counter. -/
structure Recorded (r : Record) (c : Conference) : Prop where
  sid : c.sid_ = source_ids.nth r.sources.taken
  sources : Numbered source_ids r.sources Source.ptr Source.source_id c.sources_
  sink_id : next_sink_id c.sink_id_ = sink_ids.nth r.sinks.taken
  sinks : Numbered sink_ids r.sinks Sink.ptr Sink.sink_id c.sinks_
  stream_id : c.stream_id_ = stream_ids.nth r.streams.taken
  streams : Numbered stream_ids r.streams Stream.ptr Stream.stream_id c.streams_

theorem new_recorded (type : ConferenceType) (env : Env) (want_alpha : Nat → Int) (id : Int)
    (desc : String) : Recorded .start ((Conference.new type env want_alpha id).set_desc desc) :=
  ⟨rfl, numbered_nil, rfl, numbered_nil, rfl, numbered_nil⟩

/-! ## Changes -/

/-- No counter moves, and no member is new. -/
structure Keeps (c c' : Conference) : Prop where
  sid : c'.sid_ = c.sid_
  sink_id : c'.sink_id_ = c.sink_id_
  stream_id : c'.stream_id_ = c.stream_id_
  sources : Kept Source.ptr Source.source_id c.sources_ c'.sources_
  sinks : Kept Sink.ptr Sink.sink_id c.sinks_ c'.sinks_
  streams : Kept Stream.ptr Stream.stream_id c.streams_ c'.streams_

variable {c c' : Conference} {r : Record}

theorem Keeps.refl (c : Conference) : Keeps c c :=
  ⟨rfl, rfl, rfl, .refl _ _ _, .refl _ _ _, .refl _ _ _⟩

theorem Keeps.trans {c'' : Conference} (h : Keeps c c') (h' : Keeps c' c'') : Keeps c c'' :=
  ⟨h'.sid.trans h.sid, h'.sink_id.trans h.sink_id, h'.stream_id.trans h.stream_id,
    h.sources.trans h'.sources, h.sinks.trans h'.sinks, h.streams.trans h'.streams⟩

theorem change_keeps (hc : Change c c') : Keeps c c' := by
  have h := Keeps.refl c
  cases hc with
  | marked => exact ⟨rfl, rfl, rfl, h.sources, h.sinks, h.streams⟩
  | lost => exact ⟨rfl, rfl, rfl, h.sources, h.sinks, h.streams⟩
  | source_gone hs =>
    exact ⟨rfl, rfl, rfl, kept_of_subset fun _ hy => mem_split hs hy, h.sinks, h.streams⟩
  | sink_gone hs =>
    refine ⟨rfl, rfl, rfl, h.sources, kept_of_subset fun _ hy => mem_split hs hy, ?_⟩
    refine kept_map (fun s => ?_) fun s => ?_
    · rw [stream_del_sink_eq]
    · rw [stream_del_sink_eq]
      rfl
  | stream_gone hs =>
    exact ⟨rfl, rfl, rfl, h.sources, h.sinks, kept_of_subset fun _ hy => mem_split hs hy⟩
  | source_turn env hs =>
    exact ⟨rfl, rfl, rfl, kept_turn hs (source_run_ptr env _) (source_run_id env _), h.sinks,
      h.streams⟩
  | sink_turn env hs =>
    exact ⟨rfl, rfl, rfl, h.sources, kept_turn hs (sink_run_ptr env _) (sink_run_id env _),
      h.streams⟩
  | stream_turn env hs =>
    exact ⟨rfl, rfl, rfl, h.sources, h.sinks,
      kept_turn hs (stream_run_ptr env _) (stream_run_id env _)⟩

theorem changes_keep (hc : Changes c c') : Keeps c c' := by
  induction hc with
  | refl => exact .refl c
  | tail _ hstep ih => exact ih.trans (change_keeps hstep)

/-! ## Each call -/

/-- What a conference owns came before its next pointer. -/
theorem Owned.source_old (h : Owned c) : ∀ s ∈ c.sources_, ¬ c.mem.next ≤ s.ptr :=
  fun _ hs => Nat.not_le.mpr (h.accounts.lt_next (owned_source hs))

theorem Owned.sink_old (h : Owned c) : ∀ s ∈ c.sinks_, ¬ c.mem.next ≤ s.ptr :=
  fun _ hs => Nat.not_le.mpr (h.accounts.lt_next (owned_sink hs))

theorem Owned.stream_old (h : Owned c) : ∀ s ∈ c.streams_, ¬ c.mem.next ≤ s.ptr :=
  fun _ hs => Nat.not_le.mpr (h.accounts.lt_next (owned_stream hs))

theorem Recorded.sid_still (h : Recorded r c) (hk : c'.sid_ = c.sid_) :
    c'.sid_ = source_ids.nth (r.next c c').sources.taken :=
  nth_still (not_not.mpr hk) (hk.trans h.sid)

theorem Recorded.sink_id_still (h : Recorded r c) (hk : c'.sink_id_ = c.sink_id_) :
    next_sink_id c'.sink_id_ = sink_ids.nth (r.next c c').sinks.taken :=
  nth_still (not_not.mpr hk) ((congrArg next_sink_id hk).trans h.sink_id)

theorem Recorded.sink_id_moved (h : Recorded r c) (hk : c'.sink_id_ = next_sink_id c.sink_id_) :
    next_sink_id c'.sink_id_ = sink_ids.nth (r.next c c').sinks.taken := by
  refine nth_moved (fun heq => next_sink_id_moves _ (hk.symm.trans heq)) ?_
  rw [hk, h.sink_id, next_sink_id_nth]

theorem Recorded.stream_id_still (h : Recorded r c) (hk : c'.stream_id_ = c.stream_id_) :
    c'.stream_id_ = stream_ids.nth (r.next c c').streams.taken :=
  nth_still (not_not.mpr hk) (hk.trans h.stream_id)

/-- What a call with no new member does to the record. -/
theorem Recorded.keeps (h : Recorded r c) (hs : Sound c) (hk : Keeps c c') :
    Recorded (r.next c c') c' where
  sid := h.sid_still hk.sid
  sources := h.sources.kept hs.owned.source_old hk.sources
  sink_id := h.sink_id_still hk.sink_id
  sinks := h.sinks.kept hs.owned.sink_old hk.sinks
  stream_id := h.stream_id_still hk.stream_id
  streams := h.streams.kept hs.owned.stream_old hk.streams

/-- A new sink changes nothing of a stream but its list of sinks. -/
theorem subscribe_kept (c : Conference) (target : Target) (sink : Ptr) :
    Kept Stream.ptr Stream.stream_id c.streams_ (c.subscribe target sink).streams_ := by
  cases target with
  | mix => exact .refl _ _ _
  | graph p => exact .refl _ _ _
  | stream p => exact kept_map (fun s => by split <;> rfl) fun s => by split <;> rfl

/-- Each call gives the ids that the record tells. -/
theorem Recorded.effect (h : Recorded r c) (hs : Sound c) {call : Call} (he : Effect c call c') :
    Recorded (r.next c c') c' := by
  have hsame := Keeps.refl c
  cases he with
  | changes hc => exact h.keeps hs (changes_keep hc)
  | refused env params hc =>
    have hk := changes_keep hc
    exact ⟨h.sid_still hk.sid, h.sources.kept hs.owned.source_old hk.sources,
      h.sink_id_moved hk.sink_id, h.sinks.kept hs.owned.sink_old hk.sinks,
      h.stream_id_still hk.stream_id, h.streams.kept hs.owned.stream_old hk.streams⟩
  | addSource env params hchk hpay =>
    have hmoved : next_sid c.sid_ ≠ c.sid_ := next_sid_moves c.sid_
    refine ⟨nth_moved hmoved ?_, ?_, h.sink_id_still rfl,
      h.sinks.kept hs.owned.sink_old hsame.sinks, h.stream_id_still rfl,
      h.streams.kept hs.owned.stream_old hsame.streams⟩
    · unfold Conference.source_added
      dsimp only
      rw [h.sid, next_sid_nth]
    · exact h.sources.add hs.owned.source_old hsame.sources hmoved (Nat.le_refl _) h.sid
  | addSink env params hchk hpay hkind ht =>
    rename_i payload target
    have hkept := subscribe_kept c target c.mem.next
    obtain ⟨graphics_, streams_, heq⟩ := subscribe_same c target c.mem.next
    rw [heq] at hkept
    have hmoved : next_sink_id c.sink_id_ ≠ c.sink_id_ := next_sink_id_moves c.sink_id_
    unfold Conference.sink_added Conference.adding
    dsimp only [Conference.new_sink, Sink.new]
    rw [heq]
    exact ⟨h.sid_still rfl, h.sources.kept hs.owned.source_old hsame.sources,
      h.sink_id_moved rfl,
      h.sinks.add hs.owned.sink_old hsame.sinks hmoved (Nat.le_refl _) h.sink_id,
      h.stream_id_still rfl, h.streams.kept hs.owned.stream_old hkept⟩
  | addStream env sink publisher params hcall htype hchk hpay hadd hrc =>
    obtain ⟨cid, rfl, -, -⟩ := hs.stream_channel hpay hadd hrc
    have hmoved : next_stream_id c.stream_id_ ≠ c.stream_id_ := next_stream_id_moves c.stream_id_
    refine ⟨h.sid_still rfl, h.sources.kept hs.owned.source_old hsame.sources,
      h.sink_id_still rfl, h.sinks.kept hs.owned.sink_old hsame.sinks, nth_moved hmoved ?_, ?_⟩
    · unfold Conference.stream_added
      dsimp only
      rw [h.stream_id, next_stream_id_nth]
    · exact h.streams.add hs.owned.stream_old hsame.streams hmoved (Nat.le_refl _) h.stream_id
  | edit => exact h.keeps hs ⟨rfl, rfl, rfl, hsame.sources, hsame.sinks, hsame.streams⟩

end zonekey_mcu.conference
