-- The ids of sources, sinks, streams and conferences. Sources have odd ids and streams
-- even ones. A counter that has come to its end starts again, so ids of one kind stay
-- distinct only while no object lives until its counter has come round to it.
import ZonekeyMcu.IdCounters
import ZonekeyMcu.ServerRuns
import ZonekeyMcu.Lib.ListMoves

open cyclic_ids runs list_moves zonekey_mcu.members zonekey_mcu.options zonekey_mcu.director

namespace zonekey_mcu.conference

/-! ## Distinct ids -/

/-- The ids of the live members of one conference. -/
structure Distinct (c : Conference) : Prop where
  sources : (c.sources_.map Source.source_id).Nodup
  sinks : (c.sinks_.map Sink.sink_id).Nodup
  streams : (c.streams_.map Stream.stream_id).Nodup

/-- When the call hands out an id, no live member of that kind has it. -/
def Conference.fresh (c : Conference) : Call → Prop
  | .addSource _ params => asks_source params → c.sid_ ∉ c.sources_.map Source.source_id
  | .addSink _ params => c.takes_sink params →
    next_sink_id c.sink_id_ ∉ c.sinks_.map Sink.sink_id
  | .addStream _ params => c.takes_stream params →
    c.stream_id_ ∉ c.streams_.map Stream.stream_id
  | .addStreamWithPublisher _ params => c.takes_stream params →
    c.stream_id_ ∉ c.streams_.map Stream.stream_id
  | _ => True

variable {c : Conference}

/-! ## Each call -/

section

variable {α : Type} {f : α → Int} {xs before after : List α} {x x' : α}

theorem nodup_without (hxs : xs = before ++ x :: after) (h : (xs.map f).Nodup) :
    ((before ++ after).map f).Nodup := by
  rw [hxs] at h
  exact h.sublist (((List.sublist_cons_self x after).append_left before).map f)

theorem nodup_turn (hxs : xs = before ++ x :: after) (hid : f x' = f x)
    (h : (xs.map f).Nodup) : ((before ++ x' :: after).map f).Nodup := by
  rw [hxs] at h
  simpa [hid] using h

end

theorem change_distinct {c' : Conference} (hc : Change c c') (h : Distinct c) : Distinct c' := by
  cases hc with
  | marked => exact ⟨h.sources, h.sinks, h.streams⟩
  | lost => exact ⟨h.sources, h.sinks, h.streams⟩
  | source_gone hs => exact ⟨nodup_without hs h.sources, h.sinks, h.streams⟩
  | sink_gone hs =>
    rename_i before after gone
    refine ⟨h.sources, nodup_without hs h.sinks, ?_⟩
    have hids : Stream.stream_id ∘ (fun s => (s.del_sink gone.ptr).2) = Stream.stream_id := by
      funext s
      rw [Function.comp_apply, stream_del_sink_eq]
      rfl
    dsimp only
    rw [List.map_map, hids]
    exact h.streams
  | stream_gone hs => exact ⟨h.sources, h.sinks, nodup_without hs h.streams⟩
  | source_turn env hs => exact ⟨nodup_turn hs (source_run_id env _) h.sources, h.sinks, h.streams⟩
  | sink_turn env hs => exact ⟨h.sources, nodup_turn hs (sink_run_id env _) h.sinks, h.streams⟩
  | stream_turn env hs => exact ⟨h.sources, h.sinks, nodup_turn hs (stream_run_id env _) h.streams⟩

theorem changes_distinct {c' : Conference} (hc : Changes c c') (h : Distinct c) : Distinct c' := by
  induction hc with
  | refl => exact h
  | tail _ hstep ih => exact change_distinct hstep ih

/-- A stream comes only when there is room for it. -/
theorem takes_stream_of_added {env : Env} {sink publisher : Bool} {params : KVS} {rc : Int}
    {stream : Stream} {filters : Filters} (htype : c.type = .CT_DIRECTOR)
    (hask : asks_stream params)
    (hadd : c.filters.add_stream (c.new_stream env sink publisher params) params =
      .ok (rc, stream, filters)) (hrc : 0 ≤ rc) : c.takes_stream params := by
  refine ⟨htype, hask, fun hfull => ?_⟩
  rw [add_stream_full (by exact stream_kind hask.2) hfull] at hadd
  cases hadd
  exact absurd hrc (by decide)

/-- A call that hands out a fresh id keeps the ids of the members distinct. -/
theorem Sound.effect_distinct (h : Sound c) {call : Call} {c' : Conference}
    (he : Effect c call c') (hfresh : c.fresh call) (hd : Distinct c) : Distinct c' := by
  cases he with
  | changes hc => exact changes_distinct hc hd
  | refused env params hc =>
    have hcounted : Distinct c.counted := ⟨hd.sources, hd.sinks, hd.streams⟩
    exact changes_distinct hc hcounted
  | addSource env params hchk hpay =>
    refine ⟨?_, hd.sinks, hd.streams⟩
    unfold Conference.source_added
    rw [List.map_append]
    exact nodup_append_one hd.sources (hfresh ⟨hchk, hpay⟩)
  | addSink env params hchk hpay hkind ht =>
    rename_i payload target
    obtain ⟨-, -, -, -, hids⟩ := subscribe_frame c target c.mem.next
    obtain ⟨graphics_, streams_, heq⟩ := subscribe_same c target c.mem.next
    rw [heq] at hids
    unfold Conference.sink_added Conference.adding
    dsimp only [Conference.new_sink, Sink.new]
    rw [heq]
    refine ⟨hd.sources, ?_, ?_⟩
    · rw [List.map_append]
      exact nodup_append_one hd.sinks (hfresh ⟨payload, target, hchk, hpay, hkind, ht⟩)
    · change (streams_.map Stream.id_).Nodup
      rw [hids]
      exact hd.streams
  | addStream env sink publisher params hcall htype hchk hpay hadd hrc =>
    have hnew : c.stream_id_ ∉ c.streams_.map Stream.stream_id := by
      have htakes := takes_stream_of_added htype ⟨hchk, hpay⟩ hadd hrc
      cases call with
      | addStream env' params' =>
        obtain ⟨-, rfl, -⟩ := hcall
        exact hfresh htakes
      | addStreamWithPublisher env' params' =>
        obtain ⟨-, rfl, -⟩ := hcall
        exact hfresh htakes
      | _ => exact hcall.elim
    obtain ⟨cid, rfl, -, -⟩ := h.stream_channel hpay hadd hrc
    refine ⟨hd.sources, hd.sinks, ?_⟩
    unfold Conference.stream_added
    rw [List.map_append]
    exact nodup_append_one hd.streams hnew
  | edit => exact ⟨hd.sources, hd.sinks, hd.streams⟩

/-- When the call hands out an id, its counter has not come round to a live member. -/
def Conference.unmet (c : Conference) (r : Record) : Call → Prop
  | .addSource _ params => asks_source params → Unmet source_ids r.sources Source.ptr c.sources_
  | .addSink _ params => c.takes_sink params → Unmet sink_ids r.sinks Sink.ptr c.sinks_
  | .addStream _ params => c.takes_stream params →
    Unmet stream_ids r.streams Stream.ptr c.streams_
  | .addStreamWithPublisher _ params => c.takes_stream params →
    Unmet stream_ids r.streams Stream.ptr c.streams_
  | _ => True

theorem Recorded.fresh_iff {r : Record} (h : Recorded r c) (call : Call) :
    c.fresh call ↔ c.unmet r call := by
  have hsource : c.sid_ ∉ c.sources_.map Source.source_id ↔ _ := h.sid ▸ h.sources.fresh_iff
  have hsink : next_sink_id c.sink_id_ ∉ c.sinks_.map Sink.sink_id ↔ _ :=
    h.sink_id ▸ h.sinks.fresh_iff
  have hstream : c.stream_id_ ∉ c.streams_.map Stream.stream_id ↔ _ :=
    h.stream_id ▸ h.streams.fresh_iff
  cases call with
  | addSource env params => exact imp_congr_right fun _ => hsource
  | addSink env params => exact imp_congr_right fun _ => hsink
  | addStream env params => exact imp_congr_right fun _ => hstream
  | addStreamWithPublisher env params => exact imp_congr_right fun _ => hstream
  | _ => exact Iff.rfl

end zonekey_mcu.conference

namespace zonekey_mcu.server

open zonekey_mcu.conference

/-! ## Ids of conferences -/

/-- When the action makes a conference, no live conference has the id that it gets. -/
def System.fresh_cid (s : System) : Action → Prop
  | .command _ _ str_cmd str_option _ => str_cmd = "create_conference" → ∀ params,
      util_parse_options str_option = .ok params → ¬ s.mcu.not_created params →
      s.mcu.next_id_ ∉ s.mcu.conferences_.map Conference.cid_
  | .loop _ => True

/-- When the action hands out an id, no live object of that kind has it. -/
def System.fresh (s : System) (a : Action) : Prop := s.meets Conference.fresh a ∧ s.fresh_cid a

variable {s t : System} {a : Action}

theorem changes_cids {cs cs' : List Conference} (h : List.Forall₂ Changes cs cs') :
    cs'.map Conference.cid_ = cs.map Conference.cid_ := by
  induction h with
  | nil => rfl
  | cons hc hrest ih => rw [List.map_cons, List.map_cons, ih, (changes_kind hc).2]

theorem stepped_cids (hs : Stepped s a t) (hfresh : s.fresh_cid a)
    (h : (s.mcu.conferences_.map Conference.cid_).Nodup) :
    (t.mcu.conferences_.map Conference.cid_).Nodup := by
  cases hs with
  | command hparse hserved =>
    cases hserved with
    | same => exact h
    | created hcmd hok type desc =>
      unfold Server.created
      rw [List.map_append]
      exact nodup_append_one h (hfresh hcmd _ hparse hok)
    | destroyed hsplit => exact nodup_without hsplit h
    | called hsplit hcalled he => exact nodup_turn hsplit (effect_kind he).2 h
    | registered tokens hsplit =>
      rename_i before after c
      have hid : { c with reg_notify_tokens_ := tokens }.cid_ = c.cid_ := rfl
      exact nodup_turn hsplit hid h
  | run_once hnext hcs =>
    dsimp only
    rw [changes_cids hcs]
    exact h
  | sweep hnext => exact h.sublist (List.filter_sublist.map Conference.cid_)

/-! ## Runs -/

/-- What holds of the server along a run that hands out fresh ids only. -/
structure Identified (s : System) : Prop where
  sound : ServerSound s.mcu
  members : ∀ c ∈ s.mcu.conferences_, Distinct c
  cids : (s.mcu.conferences_.map Conference.cid_).Nodup

theorem Identified.step (h : Identified s) (hfresh : s.fresh a) (hs : step s a = .ok t) :
    Identified t := by
  have hstepped := h.sound.step_inv hs
  refine ⟨h.sound.stepped hstepped, ?_, stepped_cids hstepped hfresh.2 h.cids⟩
  refine stepped_keeps_each (fun type w desc => ?_)
    (fun c call c' hsound hd hC he => hsound.effect_distinct he hC hd) (fun _ _ => trivial)
    h.sound h.members hfresh.1 hstepped
  exact ⟨List.nodup_nil, List.nodup_nil, List.nodup_nil⟩

/-! ## The ids that a run has taken -/

/-- The numbers from 1 up to 0x7effffff. -/
def conference_ids : Cycle := ⟨1, 1, 0, 0x7effffff, Int.one_ne_zero, by decide⟩

theorem next_cid_nth (k : Nat) : next_cid (conference_ids.nth k) = conference_ids.nth (k + 1) := by
  rw [nth_succ]
  unfold next_cid conference_ids Cycle.nth
  dsimp only
  split <;> split <;> omega

theorem next_cid_moves (id : Int) : next_cid id ≠ id := by
  unfold next_cid
  split <;> omega

/-- The system, with the ids of conferences that were taken, and the record of the conference
under each id. -/
structure Traced where
  sys : System
  conferences : Tally Int
  record : Int → Record

def Traced.new (cap_max : Nat) : Traced := ⟨System.new cap_max, .start, fun _ => .start⟩

/-- What is known of the ids when the system has become `t`. -/
def Traced.next (x : Traced) (t : System) : Traced where
  sys := t
  conferences := x.conferences.next (t.mcu.next_id_ ≠ x.sys.mcu.next_id_) fun cid =>
    (x.sys.mcu.find_conference cid).isNone ∧ (t.mcu.find_conference cid).isSome
  record cid :=
    match x.sys.mcu.find_conference cid, t.mcu.find_conference cid with
    | some c, some c' => (x.record cid).next c c'
    | none, some _ => .start
    | _, none => x.record cid

/-- A step of the system that keeps the ids. -/
def Traced.step (x : Traced) (a : Action) : Except Fault Traced := (server.step x.sys a).map x.next

/-- When the action hands out an id, its counter has not come round to a live object of that
kind. -/
def Traced.unmet (x : Traced) : Action → Prop
  | .command w _ str_cmd str_option _ => ∀ params, util_parse_options str_option = .ok params →
      (∀ c call, x.sys.mcu.called w params str_cmd = some (c, call) →
        c.unmet (x.record c.cid_) call) ∧
      (str_cmd = "create_conference" → ¬ x.sys.mcu.not_created params →
        Unmet conference_ids x.conferences Conference.cid_ x.sys.mcu.conferences_)
  | .loop _ => True

/-- What is known of the ids is right, and they are distinct. -/
structure Tracked (x : Traced) : Prop where
  identified : Identified x.sys
  next_id : x.sys.mcu.next_id_ = conference_ids.nth x.conferences.taken
  cids : Numbered conference_ids x.conferences Conference.cid_ Conference.cid_
    x.sys.mcu.conferences_
  records : ∀ c ∈ x.sys.mcu.conferences_, Recorded (x.record c.cid_) c

/-- An id that no counter has come round to is fresh. -/
theorem Tracked.fresh {x : Traced} (h : Tracked x) (ha : x.unmet a) : x.sys.fresh a := by
  cases a with
  | command w jid str_cmd str_option token =>
    refine ⟨fun params c call hparse hcalled => ?_, fun hcmd params hparse hok => ?_⟩
    · have hrecord := h.records c (called_mem hcalled)
      exact (hrecord.fresh_iff call).mpr ((ha params hparse).1 c call hcalled)
    · rw [h.next_id]
      exact h.cids.fresh_iff.mpr ((ha params hparse).2 hcmd hok)
  | loop env => exact ⟨trivial, trivial⟩

/-- Where the conferences come from: the step adds one, or each is one that was there, after a
call. -/
theorem stepped_from (hs : Stepped s a t) :
    (t.mcu.next_id_ = s.mcu.next_id_ ∧ ∀ c' ∈ t.mcu.conferences_,
      ∃ c ∈ s.mcu.conferences_, ∃ call, Effect c call c') ∨
    ∃ w type desc, t.mcu = s.mcu.created w type desc := by
  have hsame : ∀ c ∈ s.mcu.conferences_, ∃ d ∈ s.mcu.conferences_, ∃ call, Effect d call c :=
    fun c hc => ⟨c, hc, .run_once Env.still, .changes .refl⟩
  cases hs with
  | command hparse hserved =>
    cases hserved with
    | same => exact .inl ⟨rfl, hsame⟩
    | created hcmd hok type desc => exact .inr ⟨_, type, desc, rfl⟩
    | destroyed hsplit => exact .inl ⟨rfl, fun c hc => hsame c (mem_split hsplit hc)⟩
    | called hsplit hcalled he =>
      rename_i before after c c' call
      refine .inl ⟨rfl, forall_middle (fun d hd => hsame d ?_) ⟨c, ?_, call, he⟩
        fun d hd => hsame d ?_⟩ <;> simp_all
    | registered tokens hsplit =>
      rename_i before after c
      have hmark : Change c { c with reg_notify_tokens_ := tokens } :=
        .marked c.desc_ c.stamp_idle_ c.idle_ tokens Or.inl
      refine .inl ⟨rfl, forall_middle (fun d hd => hsame d ?_)
        ⟨c, ?_, .run_once Env.still, .changes (changes_one hmark)⟩ fun d hd => hsame d ?_⟩ <;>
        simp_all
  | run_once hnext hcs =>
    exact .inl ⟨rfl, forall_of_forall₂ hcs (fun _ hc => hc)
      fun c c' hc hchanges => ⟨c, hc, .run_once Env.still, .changes hchanges⟩⟩
  | sweep hnext => exact .inl ⟨rfl, fun c hc => hsame c (List.mem_filter.mp hc).1⟩

/-- The conference that is found under an id of its own. -/
theorem find_cid (h : (s.mcu.conferences_.map Conference.cid_).Nodup) {c : Conference}
    (hc : c ∈ s.mcu.conferences_) : s.mcu.find_conference c.cid_ = some c := by
  unfold Server.find_conference
  rw [List.find?_eq_some_iff_append]
  obtain ⟨before, after, hsplit⟩ := List.append_of_mem hc
  refine ⟨by simp, before, after, hsplit, fun d hd => ?_⟩
  rw [hsplit, List.map_append, List.map_cons, List.nodup_append] at h
  have hne := h.2.2 d.cid_ (List.mem_map_of_mem hd) c.cid_ List.mem_cons_self
  simpa using hne

theorem find_no_cid {cid : Int} (h : cid ∉ s.mcu.conferences_.map Conference.cid_) :
    s.mcu.find_conference cid = none := by
  unfold Server.find_conference
  rw [List.find?_eq_none]
  intro c hc
  have hne : c.cid_ ≠ cid := fun heq => h (heq ▸ List.mem_map_of_mem hc)
  simpa using hne

/-- A conference that was there before keeps its record. -/
theorem Tracked.record_kept {x : Traced} (h : Tracked x) (ht : Identified t) {c c' : Conference}
    {call : Call} (hc : c ∈ x.sys.mcu.conferences_) (hc' : c' ∈ t.mcu.conferences_)
    (he : Effect c call c') : Recorded ((x.next t).record c'.cid_) c' := by
  have hcid := (effect_kind he).2
  have hold := find_cid h.identified.cids hc
  have hnew := find_cid ht.cids hc'
  have hrecord : (x.next t).record c'.cid_ = (x.record c.cid_).next c c' := by
    unfold Traced.next
    dsimp only
    rw [hnew, hcid, hold]
  rw [hrecord]
  exact (h.records c hc).effect (h.identified.sound.sound c hc) he

theorem Tracked.step {x y : Traced} (h : Tracked x) (ha : x.unmet a) (hs : x.step a = .ok y) :
    Tracked y := by
  obtain ⟨t, ht, rfl⟩ := returns.map_inv hs
  have hfresh := h.fresh ha
  have hstepped := h.identified.sound.step_inv ht
  have hnext := h.identified.step hfresh ht
  have hold : ∀ c ∈ x.sys.mcu.conferences_, ¬ ((x.sys.mcu.find_conference c.cid_).isNone ∧
      (t.mcu.find_conference c.cid_).isSome) := by
    intro c hc
    rw [find_cid h.identified.cids hc]
    simp
  rcases stepped_from hstepped with ⟨hid, hfrom⟩ | ⟨w, type, desc, hmcu⟩
  · refine ⟨hnext, nth_still (not_not.mpr hid) (hid.trans h.next_id), h.cids.kept hold ?_, ?_⟩
    · intro c' hc'
      obtain ⟨c, hc, call, he⟩ := hfrom c' hc'
      have hcid := (effect_kind he).2
      exact ⟨c, hc, hcid.symm, hcid.symm⟩
    · intro c' hc'
      obtain ⟨c, hc, call, he⟩ := hfrom c' hc'
      exact h.record_kept hnext hc hc' he
  · obtain ⟨mcu, next⟩ := t
    subst hmcu
    have hnone : x.sys.mcu.find_conference x.sys.mcu.next_id_ = none := by
      refine find_no_cid fun hmem => ?_
      have hnodup := hnext.cids
      unfold Server.created at hnodup
      rw [List.map_append, List.nodup_append] at hnodup
      exact hnodup.2.2 _ hmem _ List.mem_cons_self rfl
    have hmem : ∀ c ∈ x.sys.mcu.conferences_,
        c ∈ (x.sys.mcu.created w type desc).conferences_ := fun c hc => List.mem_append_left _ hc
    have hfound := find_cid hnext.cids (List.mem_append_right _ List.mem_cons_self)
    have hmoved : next_cid x.sys.mcu.next_id_ ≠ x.sys.mcu.next_id_ := next_cid_moves _
    refine ⟨hnext, nth_moved hmoved ?_, ?_, ?_⟩
    · change next_cid x.sys.mcu.next_id_ = _
      rw [h.next_id, next_cid_nth]
    · exact h.cids.add hold (.refl _ _ _) hmoved
        ⟨Option.isNone_iff_eq_none.mpr hnone, Option.isSome_iff_exists.mpr ⟨_, hfound⟩⟩ h.next_id
    · refine forall_append_one (fun c hc => ?_) ?_
      · have hsame : Effect c (.run_once Env.still) c := .changes .refl
        exact h.record_kept hnext hc (hmem c hc) hsame
      · have hrecord : (x.next ⟨x.sys.mcu.created w type desc, next⟩).record x.sys.mcu.next_id_ =
            .start := by
          unfold Traced.next
          dsimp only
          rw [hnone, show Server.find_conference _ x.sys.mcu.next_id_ = _ from hfound]
        change Recorded ((x.next ⟨x.sys.mcu.created w type desc, next⟩).record
          x.sys.mcu.next_id_) _
        rw [hrecord]
        exact new_recorded type _ _ _ desc

/-! ## A counter that wraps -/

end zonekey_mcu.server
