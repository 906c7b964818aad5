-- The calls on streams, on the parameters, and the turn of the server loop: how
-- each one ends, and with which effect. At the end stands what any call can do.
import ZonekeyMcu.ConferenceSound
import ZonekeyMcu.Lib.Returns

open returns runs memory zonekey_mcu.members zonekey_mcu.options zonekey_mcu.director

namespace zonekey_mcu.conference

variable {c : Conference}

/-! ## Streams -/

/-- The commands on streams that trip an assert, or call a filter that is not there. -/
def Conference.stream_trips (c : Conference) (sink : Bool) (params : KVS) : Prop :=
  c.type = .CT_FREE ∨
    chk_params params ["payload"] = none ∧ param_i params "payload" = 110 ∧ sink = false

/-- The faults that end the server by a failed assert or a null filter. -/
def trips (e : Fault) : Prop := e = .assertFailed ∨ e = .nullFilter

theorem add_stream_of_director (h : c.type = .CT_DIRECTOR) (s : Stream) (params : KVS) :
    c.add_stream s params = do
      let (rc, s, filters) ← c.filters.add_stream s params
      return (rc, s, { c with filters }) := by
  unfold Conference.add_stream
  rw [h]

theorem del_stream_of_director (h : c.type = .CT_DIRECTOR) (s : Stream) :
    c.del_stream s = do
      let (rc, filters) ← c.filters.del_stream s
      return (rc, { c with filters }) := by
  unfold Conference.del_stream
  rw [h]

theorem addStreamOf_null (env : Env) (desc : String) (publisher : Bool) (params results : KVS) :
    c.addStreamOf env 110 desc false publisher params results = .error .nullFilter := by
  simp [Conference.addStreamOf, Memory.alloc, makeStream]

/-- The common part of the two commands, with the stream that was made. -/
theorem addStreamOf_eq (htype : c.type = .CT_DIRECTOR) (env : Env) {sink publisher : Bool}
    (params results : KVS) (hmake : ¬ (param_i params "payload" = 110 ∧ ¬ sink = true)) :
    c.addStreamOf env (param_i params "payload") (param_or_empty params "desc") sink publisher
      params results = do
      let (rc, stream, filters) ←
        c.filters.add_stream (c.new_stream env sink publisher params) params
      if rc < 0 then
        let c' ← Conference.delete { c with filters, mem := c.mem.alloc.2 } stream.ptr
        return (-1, results, c')
      else
        return (0, answer_of env "streamid" stream.stream_id results,
          c.stream_added stream filters) := by
  unfold Conference.addStreamOf makeStream
  dsimp only [Memory.alloc]
  rw [if_neg hmake]
  simp only [ok_bind]
  rw [add_stream_of_director (by exact htype)]
  unfold Conference.new_stream Conference.stream_added
  cases c.filters.add_stream (Stream.new env c.mem.next c.stream_id_ (param_i params "payload")
    (param_or_empty params "desc") sink publisher) params with
  | error e => rfl
  | ok r =>
    obtain ⟨rc, stream, filters⟩ := r
    simp only [ok_bind, pure_eq_ok]

/-- What `addStreamOf` does with a payload that is supported. -/
theorem Sound.addStreamOf (h : Sound c) (htype : c.type = .CT_DIRECTOR) (env : Env)
    (sink publisher : Bool) (params results : KVS)
    (hchk : chk_params params ["payload"] = none)
    (hpay : is_stream_payload (param_i params "payload") = true)
    (hmake : ¬ (param_i params "payload" = 110 ∧ ¬ sink = true)) :
    (c.addStreamOf env (param_i params "payload") (param_or_empty params "desc") sink publisher
      params results = .error .outOfBounds ∧ ¬ c.filters.video_mixer.has_end ∧
      ¬ c.filters.full (param_i params "payload") ∧ param_i params "payload" = 100) ∨
    ∃ rc results' c', c.addStreamOf env (param_i params "payload") (param_or_empty params "desc")
        sink publisher params results = .ok (rc, results', c') ∧
      (∀ call, stream_call env sink publisher params call → Effect c call c') ∧
      (c.filters.full (param_i params "payload") → rc < 0) := by
  rw [addStreamOf_eq htype env params results hmake]
  rcases h.wired.add_stream (s := c.new_stream env sink publisher params) h.owned.fresh_wire
    (stream_wire_kind hpay) params with hno | ⟨herr, ho, hv⟩ |
    ⟨cid, f', hok, -, -⟩
  · right
    refine ⟨-1, results, _, ?_, fun _ _ => .changes (changes_one .lost), fun _ => by decide⟩
    simp only [hno, ok_bind]
    rw [if_pos (by decide), delete_ok (by exact h.owned.accounts.not_deleted)]
    rfl
  · refine Or.inl ⟨by simp only [herr, error_bind], ho, fun hfull => ?_, (is_video_iff _).mp hv⟩
    rw [add_stream_full (by exact stream_kind hpay) hfull] at herr
    cases herr
  · right
    refine ⟨0, _, _, by simp only [hok, ok_bind]; rfl, fun call hcall => ?_, fun hfull => ?_⟩
    · exact .addStream env sink publisher params hcall htype hchk hpay hok (by decide)
    · rw [add_stream_full (by exact stream_kind hpay) hfull] at hok
      cases hok

/-- A command that adds a stream: it trips, the z-order array has lost its end, or it ends. -/
theorem Sound.addStreamWith (h : Sound c) (env : Env) (sink publisher : Bool)
    (params results : KVS) :
    (c.stream_trips sink params ∧
      ∃ e, c.addStreamWith env sink publisher params results = .error e ∧ trips e) ∨
    (¬ c.stream_trips sink params ∧
      c.addStreamWith env sink publisher params results = .error .outOfBounds ∧
      ¬ c.filters.video_mixer.has_end ∧ c.takes_stream params ∧
      param_i params "payload" = 100) ∨
    (¬ c.stream_trips sink params ∧ ∃ rc results' c',
      c.addStreamWith env sink publisher params results = .ok (rc, results', c') ∧
      (∀ call, stream_call env sink publisher params call → Effect c call c') ∧
      (¬ c.takes_stream params → rc < 0)) := by
  unfold Conference.addStreamWith
  by_cases htype : c.type = .CT_DIRECTOR
  · rw [if_neg (fun hn => hn htype)]
    have hfree : c.type ≠ .CT_FREE := by rw [htype]; decide
    by_cases hchk : chk_params params ["payload"] = none
    · rw [if_neg (fun hn => hn hchk)]
      dsimp only
      cases hpay : is_stream_payload (param_i params "payload") with
      | false =>
        refine Or.inr (Or.inr ⟨?_, -1, results, c, rfl, fun _ _ => .changes .refl,
          fun _ => by decide⟩)
        rintro (hn | ⟨-, hn, -⟩)
        · exact hfree hn
        · rw [hn] at hpay
          exact absurd hpay (by decide)
      | true =>
        simp only [Bool.not_true, Bool.false_eq_true, if_false]
        by_cases hnull : param_i params "payload" = 110 ∧ ¬ sink = true
        · left
          have hsink : sink = false := by simpa using hnull.2
          refine ⟨Or.inr ⟨hchk, hnull.1, hsink⟩, .nullFilter, ?_, Or.inr rfl⟩
          rw [hnull.1, hsink]
          exact addStreamOf_null env _ publisher params results
        · right
          have hno : ¬ c.stream_trips sink params := by
            rintro (hn | ⟨-, hn, hs⟩)
            · exact hfree hn
            · exact hnull ⟨hn, by rw [hs]; decide⟩
          rcases h.addStreamOf htype env sink publisher params results hchk hpay hnull with
            ⟨herr, ho, hroom, hvideo⟩ | ⟨rc, results', c', hok, heff, hrc⟩
          · exact Or.inl ⟨hno, herr, ho, ⟨htype, ⟨hchk, hpay⟩, hroom⟩, hvideo⟩
          · refine Or.inr ⟨hno, rc, results', c', hok, heff, fun hn => hrc ?_⟩
            by_contra hfull
            exact hn ⟨htype, ⟨hchk, hpay⟩, hfull⟩
    · rw [if_pos hchk]
      refine Or.inr (Or.inr ⟨?_, -1, results, c, rfl, fun _ _ => .changes .refl,
        fun _ => by decide⟩)
      rintro (hn | hn)
      · exact hfree hn
      · exact hchk hn.1
  · rw [if_pos htype]
    left
    refine ⟨Or.inl ?_, .assertFailed, rfl, Or.inl rfl⟩
    cases hkind : c.type with
    | CT_FREE => rfl
    | CT_DIRECTOR => exact absurd hkind htype

/-- The delete of a stream. The list of streams is not used. -/
theorem Sound.del_stream (h : Sound c) {before after : List Stream} {s : Stream}
    (hs : c.streams_ = before ++ s :: after) (streams_ : List Stream) :
    (Conference.del_stream { c with streams_ } s = .error .outOfBounds ∧
      ¬ c.filters.video_mixer.has_end ∧ s.payload_type = 100) ∨
    ∃ filters, c.filters.del_stream s = .ok (0, filters) ∧
      Conference.del_stream { c with streams_ } s = .ok (0, { c with streams_, filters }) := by
  have htype : c.type = .CT_DIRECTOR := by
    cases hkind : c.type with
    | CT_DIRECTOR => rfl
    | CT_FREE =>
      have hnil := h.owned.streams hkind
      rw [hs] at hnil
      simp at hnil
  rw [del_stream_of_director (by exact htype)]
  rcases h.stream_gone hs with ⟨herr, ho, hv⟩ | ⟨filters, hok, -, -, -, -⟩
  · exact Or.inl ⟨by simp only [herr, error_bind], ho, (is_video_iff s).mp hv⟩
  · exact Or.inr ⟨filters, hok, by simp only [hok, ok_bind]; rfl⟩

theorem Sound.delStream (h : Sound c) (params results : KVS) :
    (c.delStream params results = .error .outOfBounds ∧ ¬ c.filters.video_mixer.has_end ∧
      chk_params params ["streamid"] = none ∧
      ∃ s ∈ c.streams_, s.id_ = param_i params "streamid" ∧ s.payload_type = 100) ∨
    ∃ rc c', c.delStream params results = .ok (rc, results, c') ∧ Changes c c' ∧
      (chk_params params ["streamid"] ≠ none ∨
        (∀ s ∈ c.streams_, s.id_ ≠ param_i params "streamid") → rc < 0) := by
  unfold Conference.delStream
  by_cases hchk : chk_params params ["streamid"] = none
  · rw [if_neg (fun hn => hn hchk)]
    dsimp only
    rw [h.owned.find_stream]
    cases hfind : c.streams_.find? fun s => s.stream_id = param_i params "streamid" with
    | none => exact Or.inr ⟨-1, c, rfl, .refl, fun _ => by decide⟩
    | some s =>
      obtain ⟨before, after, hs, herase, hid⟩ := find_split hfind
      simp only [ok_bind, herase]
      rcases h.del_stream hs (before ++ after) with ⟨herr, ho, hv⟩ | ⟨filters, hf, hdel⟩
      · exact Or.inl ⟨by rw [herr]; rfl, ho, hchk, s, by simp [hs], of_decide_eq_true hid, hv⟩
      · refine Or.inr ⟨0, _, ?_, changes_one (.stream_gone hs hf), ?_⟩
        · rw [hdel]
          simp only [ok_bind]
          rw [delete_ok (by exact h.owned.stream_alive (by simp [hs]))]
          rfl
        · exact fun hno => absurd hno (not_refused hchk (by simp [hs]) (of_decide_eq_true hid))
  · rw [if_pos hchk]
    exact Or.inr ⟨-1, c, rfl, .refl, fun _ => by decide⟩

/-! ## Parameters -/

theorem run_one {m m' : video_mixer.CTX} {op : video_mixer.Op} {rc : Int}
    (h : m.call op = .ok (rc, m')) : run video_mixer.step m [op] = .ok m' :=
  run_cons_ok [] (video_mixer.step_of_call h)

theorem set_channel_desc_ok (m : video_mixer.CTX) (desc : video_mixer.ChannelDesc) :
    ∃ rc m', m.set_channel_desc desc = .ok (rc, m') := by
  rcases set_channel_desc_cases m desc with ⟨hset, -⟩ | ⟨-, hset⟩
  · exact ⟨_, _, hset⟩
  · exact ⟨_, _, hset⟩

/-- The answer of a command that edits a picture: it fails and changes nothing, or
makes its call on the video mixer and tells nothing of how that ended. -/
def Conference.Commands (c : Conference) (params results : KVS) (answer : Result) : Prop :=
  match c.commanded params with
  | none => ∃ results', answer = .ok (-1, results', c)
  | some (_, op) =>
    answer = (c.filters.video_mixer.call op).map fun r => (0, results, c.with_video_mixer r.2)

theorem Owned.sp_v_desc (h : Owned c) {params : KVS} (hname : param params "name" = "v.desc")
    (results : KVS) : c.Commands params results (c.sp_v_desc params results) := by
  unfold Conference.Commands Conference.commanded Conference.sp_v_desc
  by_cases hchk : chk_params params ["streamid", "x", "y", "width", "height", "alpha"] = none
  · simp only [hname, hchk, and_self, if_true]
    rw [h.find_stream]
    cases c.streams_.find? fun s => s.stream_id = param_i params "streamid" with
    | none => exact ⟨_, rfl⟩
    | some s =>
      change _ = (c.filters.video_mixer.set_channel_desc (desc_of_params params s)).map _
      simp only [ok_bind, desc_of_params]
      cases c.filters.video_mixer.set_channel_desc _ with
      | error e => rfl
      | ok r => rfl
  · have hother : ¬ ("v.desc" = "v.zorder") := by decide
    simp only [hname, hchk, and_false, hother, false_and, if_false]
    exact ⟨_, rfl⟩

theorem Owned.sp_v_zorder (h : Owned c) {params : KVS}
    (hname : param params "name" = "v.zorder") (results : KVS) :
    c.Commands params results (c.sp_v_zorder params results) := by
  have hother : ¬ ("v.zorder" = "v.desc") := by decide
  unfold Conference.Commands Conference.commanded Conference.sp_v_zorder
  by_cases hchk : chk_params params ["streamid", "oper"] = none
  · simp only [hname, hchk, hother, false_and, and_self, if_false, if_true]
    rw [h.find_stream]
    cases c.streams_.find? fun s => s.stream_id = param_i params "streamid" with
    | none => exact ⟨_, rfl⟩
    | some s =>
      simp only [ok_bind, Option.bind_some]
      cases zorder_oper (param params "oper") with
      | none => exact ⟨_, rfl⟩
      | some oper =>
        change _ = (c.filters.video_mixer.rezorder s.channel_id oper).map _
        dsimp only
        cases c.filters.video_mixer.rezorder s.channel_id oper with
        | error e => rfl
        | ok r => rfl
  · simp only [hname, hchk, hother, false_and, and_false, if_false]
    exact ⟨_, rfl⟩

theorem name_given {params : KVS} {name : String} (hname : param params "name" = name)
    (hne : name ≠ "") : chk_params params ["name"] = none := by
  rw [chk_params_none]
  intro key hkey
  rw [List.mem_singleton.mp hkey]
  cases hget : get_param_value params "name" with
  | some value => rfl
  | none =>
    unfold param at hname
    rw [hget] at hname
    exact absurd hname.symm hne

/-- The two commands that edit a picture. -/
def names_picture (params : KVS) : Prop :=
  param params "name" = "v.desc" ∨ param params "name" = "v.zorder"

theorem Owned.setParams_picture (h : Owned c) (htype : c.type = .CT_DIRECTOR) {params : KVS}
    (hname : names_picture params) (results : KVS) :
    c.Commands params results (c.setParams params results) := by
  unfold Conference.setParams
  rw [htype]
  dsimp only
  rcases hname with hname | hname
  · rw [name_given hname (by decide)]
    dsimp only
    rw [if_pos hname]
    exact h.sp_v_desc hname results
  · rw [name_given hname (by decide)]
    dsimp only
    rw [if_neg (by rw [hname]; decide), if_pos hname]
    exact h.sp_v_zorder hname results

/-- The effect of a command that edits a picture. -/
theorem Conference.Commands.effect {params results : KVS} {answer : Result}
    (h : c.Commands params results answer) (htype : c.type = .CT_DIRECTOR) :
    (answer = .error .outOfBounds ∧ ¬ c.filters.video_mixer.has_end ∧ c.moves_picture params) ∨
    ∃ rc results' c', answer = .ok (rc, results', c') ∧ Effect c (.setParams params) c' := by
  unfold Conference.Commands at h
  cases hcmd : c.commanded params with
  | none =>
    rw [hcmd] at h
    obtain ⟨results', rfl⟩ := h
    exact Or.inr ⟨_, _, _, rfl, .changes .refl⟩
  | some r =>
    obtain ⟨s, op⟩ := r
    rw [hcmd] at h
    have hops : c.edits (.setParams params) [op] := by
      simp only [Conference.edits, hcmd, Option.toList_some, List.map_cons, List.map_nil]
    have heffect : ∀ rc m, c.filters.video_mixer.call op = .ok (rc, m) →
        ∃ rc results' c', answer = .ok (rc, results', c') ∧ Effect c (.setParams params) c' := by
      intro rc m hm
      refine ⟨0, results, c.with_video_mixer m, by rw [h, hm]; rfl, ?_⟩
      exact .edit htype [op] m.setting hops (run_one hm)
    rcases (commanded_some hcmd).2 with rfl | ⟨oper, rfl⟩
    · obtain ⟨rc, m', hset⟩ := set_channel_desc_ok c.filters.video_mixer (desc_of_params params s)
      exact Or.inr (heffect rc m' hset)
    · rcases rezorder_cases c.filters.video_mixer s.channel_id oper with ⟨rc, z, hz⟩ | ⟨hz, hno⟩
      · exact Or.inr (heffect rc _ hz)
      · refine Or.inl ⟨?_, hno, s, oper, hcmd⟩
        change answer = (c.filters.video_mixer.rezorder s.channel_id oper).map _ at h
        rw [h, hz]
        rfl

/-- A command with parameters ends, unless the z-order array has lost its end. -/
theorem Owned.setParams (h : Owned c) (params results : KVS) :
    (c.setParams params results = .error .outOfBounds ∧ ¬ c.filters.video_mixer.has_end ∧
      c.moves_picture params) ∨
    ∃ rc results' c', c.setParams params results = .ok (rc, results', c') ∧
      Effect c (.setParams params) c' := by
  cases htype : c.type with
  | CT_FREE =>
    right
    unfold Conference.setParams
    rw [htype]
    exact ⟨_, _, _, rfl, .changes .refl⟩
  | CT_DIRECTOR =>
    by_cases hname : names_picture params
    · exact (h.setParams_picture htype hname results).effect htype
    · right
      obtain ⟨hdesc, hzorder⟩ := not_or.mp hname
      have hcmd : c.commanded params = none := by
        unfold Conference.commanded
        rw [if_neg fun hn => hdesc hn.1, if_neg fun hn => hzorder hn.1]
      unfold Conference.setParams
      rw [htype]
      dsimp only
      split
      · exact ⟨_, _, _, rfl, .changes .refl⟩
      · rw [if_neg hdesc, if_neg hzorder]
        split
        · unfold Conference.sp_v_encoder
          split
          · exact ⟨_, _, _, rfl, .changes .refl⟩
          · refine ⟨_, _, _, rfl, .edit htype [] _ ?_ rfl⟩
            simp [Conference.edits, hcmd]
        · exact ⟨_, _, _, rfl, .changes .refl⟩

theorem Owned.vs_exchange_position (h : Owned c) (id1 id2 : Int) : ∃ rc c',
    c.vs_exchange_position id1 id2 = .ok (rc, c') ∧
      Effect c (.vs_exchange_position id1 id2) c' := by
  unfold Conference.vs_exchange_position
  rw [h.find_stream, h.find_stream]
  cases htype : c.type with
  | CT_FREE => exact ⟨_, _, rfl, .changes .refl⟩
  | CT_DIRECTOR =>
    simp only [ok_bind]
    split
    · rename_i s1 s2 _ _
      split
      · split
        · rename_i desc1 desc2 _ _
          obtain ⟨rc, m', hm'⟩ := set_channel_desc_ok c.filters.video_mixer
            { desc2 with id := s1.channel_id }
          obtain ⟨rc', m'', hm''⟩ := set_channel_desc_ok m' { desc1 with id := s2.channel_id }
          have hone : c.filters.video_mixer.call (.set_channel_desc _) = .ok (rc, m') := hm'
          have htwo : m'.call (.set_channel_desc _) = .ok (rc', m'') := hm''
          have hrun : run video_mixer.step c.filters.video_mixer [.set_channel_desc _,
              .set_channel_desc _] = .ok m'' :=
            (run_cons_ok _ (video_mixer.step_of_call hone)).trans (run_one htwo)
          rw [hm']
          simp only [ok_bind]
          rw [hm'']
          refine ⟨_, _, rfl, .edit htype _ m''.setting (fun op hop => ?_) hrun⟩
          simp only [List.mem_cons, List.not_mem_nil, or_false] at hop
          rcases hop with rfl | rfl <;> exact ⟨_, rfl⟩
        · exact ⟨_, _, rfl, .changes .refl⟩
      · exact ⟨_, _, rfl, .changes .refl⟩
    · exact ⟨_, _, rfl, .changes .refl⟩

/-! ## Parameters that are read -/

theorem Owned.get_v_stream_from_cid (h : Owned c) (cid : Int) : ∃ s,
    c.get_v_stream_from_cid cid = .ok s :=
  ⟨_, find_alive _ _ _ fun _ hs => h.stream_alive hs⟩

theorem Owned.texts_of (h : Owned c) (text : Int → Stream → String) (cids : List Int) :
    ∃ t, c.texts_of text cids = .ok t := by
  induction cids with
  | nil => exact ⟨"", rfl⟩
  | cons cid cids ih =>
    obtain ⟨s, hs⟩ := h.get_v_stream_from_cid cid
    obtain ⟨t, ht⟩ := ih
    unfold Conference.texts_of
    simp only [hs, ht, ok_bind, pure_eq_ok]
    exact ⟨_, rfl⟩

/-- The parameters are read, and the conference stays as it is. -/
theorem Owned.getParams (h : Owned c) (texts : Texts) (params results : KVS) :
    ∃ rc results', c.getParams texts params results = .ok (rc, results', c) := by
  unfold Conference.getParams
  cases c.type with
  | CT_FREE => exact ⟨_, _, rfl⟩
  | CT_DIRECTOR =>
    dsimp only
    split
    · exact ⟨_, _, rfl⟩
    · split
      · unfold Conference.gp_v_desc
        split
        · exact ⟨_, _, rfl⟩
        · rw [h.find_stream]
          simp only [ok_bind]
          split
          · exact ⟨_, _, rfl⟩
          · split <;> exact ⟨_, _, rfl⟩
      · split
        · unfold Conference.gp_v_zorder
          obtain ⟨t, ht⟩ := h.texts_of (fun _ s => text_i s.stream_id ++ ",")
            (c.filters.video_mixer.get_zorder_array.take video_mixer.MAX_CHANNELS)
          simp only [ht, ok_bind]
          exact ⟨_, _, rfl⟩
        · split
          · exact ⟨_, _, rfl⟩
          · split
            · exact ⟨_, _, rfl⟩
            · split
              · unfold Conference.gp_v_comple_state
                obtain ⟨t, ht⟩ := h.texts_of (state_line c.filters.video_mixer)
                  ((c.filters.video_mixer.get_zorder_array.take
                    video_mixer.MAX_CHANNELS).takeWhile (· ≠ -1))
                simp only [ht, ok_bind]
                exact ⟨_, _, rfl⟩
              · exact ⟨_, _, rfl⟩

/-! ## The turn of the loop -/

section

variable {α : Type} (ptr : α → Ptr) (death : α → Bool) (run : α → α)
  (del : Conference → α → Except Fault (Int × Conference))

/-- The rule for a sweep. `P done rest c` holds when the loop has come past `done`
and has `rest` before it. The loop ends, or the delete of a member fails with an
error in `E`. -/
theorem sweep_rule (P : List α → List α → Conference → Prop) (E : Fault → Prop)
    (halive : ∀ done x rest c, P done (x :: rest) c → ptr x ∉ c.mem.deleted)
    (hturn : ∀ done x rest c, P done (x :: rest) c → P (done ++ [run x]) rest c)
    (hdead : ∀ done x rest c, P done (x :: rest) c →
      (∃ rc c1 c2, del c x = .ok (rc, c1) ∧ c1.delete (ptr x) = .ok c2 ∧ P done rest c2) ∨
        ∃ e, del c x = .error e ∧ E e)
    (done xs : List α) (c : Conference) (h : P done xs c) :
    (∃ ys c', sweep ptr death run del xs c = .ok (ys, c') ∧ P (done ++ ys) [] c') ∨
      ∃ e, sweep ptr death run del xs c = .error e ∧ E e := by
  induction xs generalizing done c with
  | nil => exact Or.inl ⟨[], c, rfl, by rwa [List.append_nil]⟩
  | cons x xs ih =>
    unfold sweep
    rw [if_neg (halive done x xs c h)]
    cases death x with
    | true =>
      rw [if_pos rfl]
      rcases hdead done x xs c h with ⟨rc, c1, c2, hdel, hdelete, hP⟩ | ⟨e, herr, hE⟩
      · simp only [hdel, hdelete, ok_bind]
        exact ih _ _ hP
      · exact Or.inr ⟨e, by simp only [herr, error_bind], hE⟩
    | false =>
      rw [if_neg (by decide)]
      rcases ih _ _ (hturn done x xs c h) with ⟨ys, c', hok, hP⟩ | ⟨e, herr, hE⟩
      · refine Or.inl ⟨run x :: ys, c', by simp only [hok, ok_bind, pure_eq_ok], ?_⟩
        rwa [List.append_assoc] at hP
      · exact Or.inr ⟨e, by simp only [herr, error_bind], hE⟩

end

/-- The conference as the loop over the sources sees it, with the members that it
came past and those that are left. -/
def AtSources (c₀ : Conference) (done rest : List Source) (c : Conference) : Prop :=
  Sound { c with sources_ := done ++ rest } ∧ Changes c₀ { c with sources_ := done ++ rest }

theorem Sound.sweep_sources (h : Sound c) (env : Env) : ∃ c',
    c.sweep_sources env = .ok c' ∧ Changes c c' ∧ (c.sources_ = [] → c'.sources_ = []) := by
  have hrule := sweep_rule Source.ptr Source.death_ (Source.run env) Conference.del_source
    (AtSources c) (fun _ => False) ?_ ?_ ?_ [] c.sources_ c ⟨h, .refl⟩
  · rcases hrule with ⟨ys, c', hok, -, hc⟩ | ⟨e, -, hno⟩
    · refine ⟨{ c' with sources_ := ys }, ?_, ?_, fun hnil => ?_⟩
      · unfold Conference.sweep_sources
        simp only [hok, ok_bind, pure_eq_ok]
      · simpa using hc
      · rw [hnil] at hok
        cases hok
        rfl
    · exact absurd hno id
  · rintro done x rest d ⟨hs, -⟩
    exact hs.owned.source_alive (by simp)
  · rintro done x rest d ⟨hs, hc⟩
    have hturn : Change { d with sources_ := done ++ x :: rest }
        { d with sources_ := done ++ x.run env :: rest } := .source_turn env rfl
    unfold AtSources
    rw [List.append_assoc, List.singleton_append]
    exact ⟨hs.change hturn, hc.tail hturn⟩
  · rintro done x rest d ⟨hs, hc⟩
    left
    obtain ⟨gb, g, ga, hg, hgb, hdel, hnd⟩ := hs.owned.del_source rfl d.sources_
    have hgone := Change.source_gone (c := { d with sources_ := done ++ x :: rest }) rfl hg hgb
    exact ⟨0, _, _, hdel, delete_ok (by exact hnd), hs.change hgone, hc.tail hgone⟩

/-- The same for the sinks. The sources stay as they are. -/
def AtSinks (c₀ : Conference) (done rest : List Sink) (c : Conference) : Prop :=
  Sound { c with sinks_ := done ++ rest } ∧ Changes c₀ { c with sinks_ := done ++ rest } ∧
    c.sources_ = c₀.sources_

theorem Sound.sweep_sinks (h : Sound c) (env : Env) : ∃ c',
    c.sweep_sinks env = .ok c' ∧ Changes c c' ∧ c'.sources_ = c.sources_ := by
  have hrule := sweep_rule Sink.ptr Sink.death_ (Sink.run env) Conference.del_sink
    (AtSinks c) (fun _ => False) ?_ ?_ ?_ [] c.sinks_ c ⟨h, .refl, rfl⟩
  · rcases hrule with ⟨ys, c', hok, -, hc, hsrc⟩ | ⟨e, -, hno⟩
    · refine ⟨{ c' with sinks_ := ys }, ?_, ?_, hsrc⟩
      · unfold Conference.sweep_sinks
        simp only [hok, ok_bind, pure_eq_ok]
      · simpa using hc
    · exact absurd hno id
  · rintro done x rest d ⟨hs, -, -⟩
    exact hs.owned.sink_alive (by simp)
  · rintro done x rest d ⟨hs, hc, hsrc⟩
    have hturn : Change { d with sinks_ := done ++ x :: rest }
        { d with sinks_ := done ++ x.run env :: rest } := .sink_turn env rfl
    unfold AtSinks
    rw [List.append_assoc, List.singleton_append]
    exact ⟨hs.change hturn, hc.tail hturn, hsrc⟩
  · rintro done x rest d ⟨hs, hc, hsrc⟩
    left
    obtain ⟨rc, hdel⟩ := hs.owned.del_sink x d.sinks_
    have hgone := Change.sink_gone (c := { d with sinks_ := done ++ x :: rest }) rfl
    exact ⟨rc, _, _, hdel, delete_ok (by exact hs.owned.sink_alive (by simp)), hs.change hgone,
      hc.tail hgone, hsrc⟩

/-- The same for the streams. The delete of one fails only when the z-order array has
lost its end. -/
def AtStreams (c₀ : Conference) (done rest : List Stream) (c : Conference) : Prop :=
  Sound { c with streams_ := done ++ rest } ∧ Changes c₀ { c with streams_ := done ++ rest } ∧
    c.sources_ = c₀.sources_ ∧
      (c₀.filters.video_mixer.has_end → c.filters.video_mixer.has_end)

theorem Sound.sweep_streams (h : Sound c) (env : Env) :
    (c.sweep_streams env = .error .outOfBounds ∧ ¬ c.filters.video_mixer.has_end) ∨
    ∃ c', c.sweep_streams env = .ok c' ∧ Changes c c' ∧ c'.sources_ = c.sources_ ∧
      (c.streams_ = [] → c'.streams_ = []) := by
  have hrule := sweep_rule Stream.ptr Stream.death_ (Stream.run env) Conference.del_stream
    (AtStreams c) (fun e => e = .outOfBounds ∧ ¬ c.filters.video_mixer.has_end) ?_ ?_ ?_
    [] c.streams_ c ⟨h, .refl, rfl, id⟩
  · unfold Conference.sweep_streams
    rcases hrule with ⟨ys, c', hok, -, hc, hsrc, -⟩ | ⟨e, herr, rfl, hno⟩
    · right
      refine ⟨{ c' with streams_ := ys }, by simp only [hok, ok_bind, pure_eq_ok], ?_, hsrc,
        fun hnil => ?_⟩
      · simpa using hc
      · rw [hnil] at hok
        cases hok
        rfl
    · exact Or.inl ⟨by simp only [herr, error_bind], hno⟩
  · rintro done x rest d ⟨hs, -, -, -⟩
    exact hs.owned.stream_alive (by simp)
  · rintro done x rest d ⟨hs, hc, hsrc, ho⟩
    have hturn : Change { d with streams_ := done ++ x :: rest }
        { d with streams_ := done ++ x.run env :: rest } := .stream_turn env rfl
    unfold AtStreams
    rw [List.append_assoc, List.singleton_append]
    exact ⟨hs.change hturn, hc.tail hturn, hsrc, ho⟩
  · rintro done x rest d ⟨hs, hc, hsrc, ho⟩
    have hsplit : { d with streams_ := done ++ x :: rest }.streams_ = done ++ x :: rest := rfl
    rcases hs.del_stream hsplit d.streams_ with
      ⟨herr, hno, -⟩ | ⟨filters, hf, hdel⟩
    · exact Or.inr ⟨_, herr, rfl, fun ho' => hno (ho ho')⟩
    · have hgone := Change.stream_gone (c := { d with streams_ := done ++ x :: rest }) rfl hf
      have hkeep := hs.change_has_end hgone
      exact Or.inl ⟨0, _, _, hdel, delete_ok (by exact hs.owned.stream_alive (by simp)),
        hs.change hgone, hc.tail hgone, hsrc, fun ho' => hkeep (ho ho')⟩

/-- The mark is set only when there are no sources and no streams. -/
theorem mark_idle_change (env : Env) {n_sources n_streams : Nat}
    (hsources : n_sources = 0 → c.sources_ = []) (hstreams : n_streams = 0 → c.streams_ = []) :
    Change c (c.mark_idle env n_sources n_streams) := by
  refine .marked c.desc_ _ _ c.reg_notify_tokens_ fun hidle => ?_
  split at hidle
  · rename_i hmark
    have hzero := hmark.1
    simp only [Bool.and_eq_true, decide_eq_true_eq] at hzero
    exact Or.inr ⟨hsources hzero.1, hstreams hzero.2⟩
  · exact Or.inl hidle

/-- A turn ends, unless the z-order array has lost its end. -/
theorem Sound.run_once (h : Sound c) (env : Env) :
    (c.run_once env = .error .outOfBounds ∧ ¬ c.filters.video_mixer.has_end) ∨
    ∃ c', c.run_once env = .ok c' ∧ Changes c c' := by
  obtain ⟨c1, h1, hc1, hnil1⟩ := h.sweep_sources env
  obtain ⟨c2, h2, hc2, hsrc2⟩ := (h.changes hc1).sweep_sinks env
  have hc12 : Changes c c2 := hc1.trans hc2
  unfold Conference.run_once
  simp only [h1, h2, ok_bind, pure_eq_ok]
  rcases (h.changes hc12).sweep_streams env with ⟨herr, ho⟩ | ⟨c3, h3, hc3, hsrc3, hnil3⟩
  · left
    exact ⟨by simp only [herr, error_bind], fun hend => ho (h.changes_has_end hc12 hend)⟩
  · right
    simp only [h3, ok_bind]
    refine ⟨_, rfl, (hc12.trans hc3).tail (mark_idle_change env (fun hzero => ?_) fun hzero => ?_)⟩
    · rw [hsrc3, hsrc2]
      exact hnil1 (List.length_eq_zero_iff.mp hzero)
    · exact hnil3 (List.length_eq_zero_iff.mp hzero)

/-! ## Any call -/

/-- The calls that trip an assert or a null filter. -/
def Conference.call_trips (c : Conference) : Call → Prop
  | .addSink _ params => c.sink_trips params
  | .addStream _ params => c.stream_trips true params
  | .addStreamWithPublisher _ params => c.stream_trips false params
  | _ => False

/-- The call goes through the z-order array: it gives a channel to a picture, takes one back,
or moves one. -/
def Conference.walks (c : Conference) : Call → Prop
  | .addStream _ params | .addStreamWithPublisher _ params =>
    c.takes_stream params ∧ param_i params "payload" = 100
  | .delStream params => chk_params params ["streamid"] = none ∧
    ∃ s ∈ c.streams_, s.id_ = param_i params "streamid" ∧ s.payload_type = 100
  | .setParams params => c.moves_picture params
  | .run_once _ => True
  | _ => False

/-- How a call can end: it trips, it runs past the z-order array, which has lost its end, or
it returns with one of the effects. -/
def Ends (c : Conference) (call : Call) : Prop :=
  (c.call_trips call ∧ ∃ e, c.call call = .error e ∧ trips e) ∨
  (¬ c.call_trips call ∧ c.call call = .error .outOfBounds ∧
    ¬ c.filters.video_mixer.has_end ∧ c.walks call) ∨
  (¬ c.call_trips call ∧ ∃ rc c', c.call call = .ok (rc, c') ∧ Effect c call c')

theorem ends_ok {call : Call} {x : Result} (hcall : c.call call = x.map fun r => (r.1, r.2.2))
    (hno : ¬ c.call_trips call) {rc : Int} {results : KVS} {c' : Conference}
    (hx : x = .ok (rc, results, c')) (he : Effect c call c') : Ends c call :=
  Or.inr (Or.inr ⟨hno, rc, c', by rw [hcall, hx]; rfl, he⟩)

theorem Sound.addStreamWith_ends (h : Sound c) (env : Env) (sink publisher : Bool) (params : KVS)
    {call : Call} (hkind : stream_call env sink publisher params call)
    (htrips : c.call_trips call ↔ c.stream_trips sink params)
    (hwalks : c.takes_stream params ∧ param_i params "payload" = 100 → c.walks call)
    (hcall : c.call call = (c.addStreamWith env sink publisher params []).map
      fun r => (r.1, r.2.2)) : Ends c call := by
  rcases h.addStreamWith env sink publisher params [] with
    ⟨ht, e, herr, he⟩ | ⟨ht, herr, ho, htakes⟩ | ⟨ht, rc, results, c', hok, heff, -⟩
  · exact Or.inl ⟨htrips.mpr ht, e, by rw [hcall, herr]; rfl, he⟩
  · exact Or.inr (Or.inl ⟨fun hn => ht (htrips.mp hn), by rw [hcall, herr]; rfl, ho,
      hwalks htakes⟩)
  · exact ends_ok hcall (fun hn => ht (htrips.mp hn)) hok (heff call hkind)

/-- Each call on a conference ends in one of these ways. -/
theorem Sound.call (h : Sound c) (call : Call) : Ends c call := by
  cases call with
  | addSource env params =>
    rcases addSource_cases c env params [] with ⟨hok, -⟩ | ⟨hok, hchk, hpay⟩
    · exact ends_ok rfl id hok (.changes .refl)
    · exact ends_ok rfl id hok (.addSource env params hchk hpay)
  | delSource params =>
    obtain ⟨rc, c', hok, hc, -⟩ := h.owned.delSource params []
    exact ends_ok rfl id hok (.changes hc)
  | addSink env params =>
    rcases h.owned.addSink h.parity.odd env params [] with
      ⟨ht, herr⟩ | ⟨ht, rc, results, c', hok, heff, -⟩
    · refine Or.inl ⟨ht, .assertFailed, ?_, Or.inl rfl⟩
      unfold Conference.call
      dsimp only
      rw [herr]
      rfl
    · exact ends_ok rfl ht hok heff
  | delSink params =>
    obtain ⟨rc, c', hok, hc, -⟩ := h.owned.delSink params []
    exact ends_ok rfl id hok (.changes hc)
  | addStream env params =>
    exact h.addStreamWith_ends env true false params ⟨rfl, rfl, rfl, rfl⟩ Iff.rfl id rfl
  | addStreamWithPublisher env params =>
    exact h.addStreamWith_ends env false true params ⟨rfl, rfl, rfl, rfl⟩ Iff.rfl id rfl
  | delStream params =>
    rcases h.delStream params [] with ⟨herr, ho, hwalks⟩ | ⟨rc, c', hok, hc, -⟩
    · refine Or.inr (Or.inl ⟨id, ?_, ho, hwalks⟩)
      unfold Conference.call
      dsimp only
      rw [herr]
      rfl
    · exact ends_ok rfl id hok (.changes hc)
  | setParams params =>
    rcases h.owned.setParams params [] with ⟨herr, ho, hwalks⟩ | ⟨rc, results, c', hok, heff⟩
    · refine Or.inr (Or.inl ⟨id, ?_, ho, hwalks⟩)
      unfold Conference.call
      dsimp only
      rw [herr]
      rfl
    · exact ends_ok rfl id hok heff
  | vs_exchange_position id1 id2 =>
    obtain ⟨rc, c', hok, heff⟩ := h.owned.vs_exchange_position id1 id2
    exact Or.inr (Or.inr ⟨id, rc, c', hok, heff⟩)
  | run_once env =>
    rcases h.run_once env with ⟨herr, ho⟩ | ⟨c', hok, hc⟩
    · refine Or.inr (Or.inl ⟨id, ?_, ho, trivial⟩)
      unfold Conference.call
      dsimp only
      rw [herr]
      rfl
    · refine Or.inr (Or.inr ⟨id, 0, c', ?_, .changes hc⟩)
      unfold Conference.call
      dsimp only
      rw [hok]
      rfl

theorem Sound.call_effect (h : Sound c) {call : Call} {rc : Int} {c' : Conference}
    (hok : c.call call = .ok (rc, c')) : Effect c call c' := by
  rcases h.call call with ⟨-, e, herr, -⟩ | ⟨-, herr, -⟩ | ⟨-, rc', d, hd, he⟩
  · rw [herr] at hok
    cases hok
  · rw [herr] at hok
    cases hok
  · rw [hd] at hok
    cases hok
    exact he

theorem step_call {call : Call} {c' : Conference} (hs : step c call = .ok c') :
    ∃ rc, c.call call = .ok (rc, c') := by
  obtain ⟨r, hcall, rfl⟩ := map_inv hs
  exact ⟨r.1, hcall⟩

/-- One step: its effect, and the invariant after it. -/
theorem Sound.step (h : Sound c) {call : Call} {c' : Conference} (hs : step c call = .ok c') :
    Effect c call c' ∧ Sound c' := by
  obtain ⟨rc, hcall⟩ := step_call hs
  have he := h.call_effect hcall
  exact ⟨he, h.effect he⟩

end zonekey_mcu.conference
