-- The texts of the answers. Most of them have no '%', and so they are logged as they are. The
-- others repeat a text that a client gave, in this command or in an earlier one.
import ZonekeyMcu.Lib.Returns
import ZonekeyMcu.ServerCommands

open returns zonekey_mcu.members zonekey_mcu.options zonekey_mcu.conference zonekey_mcu.logging

namespace zonekey_mcu.conference

section

variable {c : Conference} {results : KVS}

/-! ## The commands on one conference -/

theorem answer_of_bare {env : Env} (hip : Bare env.ip) {key : String} (hkey : Bare key)
    (id : Int) (h : BareMap results) : BareMap (answer_of env key id results) := by
  unfold answer_of
  refine bare_set (by decide) hip ?_
  refine bare_set (by decide) (bare_text_i env.rtcp_port) ?_
  refine bare_set (by decide) (bare_text_i env.rtp_port) ?_
  exact bare_set hkey (bare_text_i id) h

theorem addSource_bare (h : BareMap results) {env : Env} (hip : Bare env.ip) (params : KVS) :
    Returns (c.addSource env params results) fun r => BareMap r.2.1 := by
  unfold Conference.addSource
  split
  · exact returns_ok h
  · dsimp only
    split
    · exact returns_ok h
    · split
      · exact returns_bind fun _ => returns_pure h
      · exact returns_pure (answer_of_bare hip (by decide) _ h)

theorem delSource_bare (h : BareMap results) (params : KVS) :
    Returns (c.delSource params results) fun r => BareMap r.2.1 := by
  unfold Conference.delSource
  split
  · exact returns_ok h
  · apply returns_bind
    intro s
    cases s with
    | none => exact returns_pure h
    | some s => exact returns_bind fun _ => returns_bind fun _ => returns_pure h

theorem addSink_bare (h : BareMap results) {env : Env} (hip : Bare env.ip) (params : KVS) :
    Returns (c.addSink env params results) fun r => BareMap r.2.1 := by
  unfold Conference.addSink
  split
  · exact returns_ok h
  · apply returns_bind
    intro payload
    cases payload with
    | none => exact returns_pure h
    | some payload =>
      dsimp only
      split
      · exact returns_pure (bare_set (by decide) (by decide) h)
      · apply returns_bind
        intro r
        split
        · exact returns_bind fun _ => returns_pure h
        · exact returns_pure (answer_of_bare hip (by decide) _ h)

theorem delSink_bare (h : BareMap results) (params : KVS) :
    Returns (c.delSink params results) fun r => BareMap r.2.1 := by
  unfold Conference.delSink
  split
  · exact returns_ok h
  · apply returns_bind
    intro s
    cases s with
    | none => exact returns_pure h
    | some s => exact returns_bind fun _ => returns_bind fun _ => returns_pure h

theorem addStreamWith_bare (h : BareMap results) {env : Env} (hip : Bare env.ip)
    (sink publisher : Bool) (params : KVS) :
    Returns (c.addStreamWith env sink publisher params results) fun r => BareMap r.2.1 := by
  unfold Conference.addStreamWith
  split
  · exact returns_error
  · split
    · exact returns_ok h
    · dsimp only
      split
      · exact returns_ok h
      · unfold Conference.addStreamOf
        refine returns_bind fun stream => returns_bind fun r => ?_
        dsimp only
        split
        · exact returns_bind fun _ => returns_pure h
        · exact returns_pure (answer_of_bare hip (by decide) _ h)

theorem delStream_bare (h : BareMap results) (params : KVS) :
    Returns (c.delStream params results) fun r => BareMap r.2.1 := by
  unfold Conference.delStream
  split
  · exact returns_ok h
  · apply returns_bind
    intro s
    cases s with
    | none => exact returns_pure h
    | some s => exact returns_bind fun _ => returns_bind fun _ => returns_pure h

/-! ## Parameters -/

theorem sp_v_desc_bare (h : BareMap results) (params : KVS) :
    Returns (c.sp_v_desc params results) fun r => BareMap r.2.1 := by
  unfold Conference.sp_v_desc
  split
  · apply returns_bind
    intro s
    cases s with
    | none => exact returns_pure (bare_set (by decide) (by decide) h)
    | some s => exact returns_bind fun _ => returns_pure h
  · exact returns_ok (bare_set (by decide) (by decide) h)

theorem sp_v_zorder_bare (h : BareMap results) (params : KVS) :
    Returns (c.sp_v_zorder params results) fun r => BareMap r.2.1 := by
  unfold Conference.sp_v_zorder
  split
  · apply returns_bind
    intro s
    cases s with
    | none => exact returns_pure (bare_set (by decide) (by decide) h)
    | some s =>
      dsimp only
      split
      · exact returns_pure (bare_set (by decide) (by decide) h)
      · exact returns_bind fun _ => returns_pure h
  · exact returns_ok (bare_set (by decide) (by decide) h)

theorem sp_v_encoder_bare (h : BareMap results) (params : KVS) :
    Returns (c.sp_v_encoder params results) fun r => BareMap r.2.1 := by
  unfold Conference.sp_v_encoder
  split
  · rename_i info hchk
    exact returns_ok (bare_set (by decide) (bare_chk_params (by decide) hchk) h)
  · exact returns_ok h

/-- The command names a parameter that a director conference does not know. -/
def Conference.unsupported (c : Conference) (params : KVS) : Prop :=
  c.type = .CT_DIRECTOR ∧ chk_params params ["name"] = none ∧ param params "name" ≠ "v.desc" ∧
    param params "name" ≠ "v.zorder" ∧ param params "name" ≠ "v.encoder"

instance (c : Conference) (params : KVS) : Decidable (c.unsupported params) := by
  unfold Conference.unsupported
  infer_instance

theorem setParams_unsupported {params : KVS} (h : c.unsupported params) : c.setParams params [] =
    .ok (-1, KVS.set "reason" (unsupported_param (param params "name")) [], c) := by
  obtain ⟨htype, hchk, hdesc, hzorder, hencoder⟩ := h
  unfold Conference.setParams
  rw [htype]
  dsimp only
  rw [hchk]
  dsimp only
  rw [if_neg hdesc, if_neg hzorder, if_neg hencoder]

theorem setParams_bare (h : BareMap results) {params : KVS} (hno : ¬ c.unsupported params) :
    Returns (c.setParams params results) fun r => BareMap r.2.1 := by
  unfold Conference.setParams
  split
  · exact returns_ok h
  · rename_i htype
    split
    · rename_i info hchk
      exact returns_ok (bare_set (by decide) (bare_chk_params (by decide) hchk) h)
    · rename_i hchk
      dsimp only
      split
      · exact sp_v_desc_bare h params
      · split
        · exact sp_v_zorder_bare h params
        · split
          · exact sp_v_encoder_bare h params
          · rename_i hdesc hzorder hencoder
            exact absurd ⟨htype, hchk, hdesc, hzorder, hencoder⟩ hno

theorem texts_of_bare {text : Int → Stream → String} (ht : ∀ cid s, Bare (text cid s))
    (cids : List Int) : Returns (c.texts_of text cids) Bare := by
  induction cids with
  | nil => exact returns_ok (by decide)
  | cons cid cids ih =>
    unfold Conference.texts_of
    refine returns_bind fun s => ih.bind fun rest hrest => returns_pure (bare_append ?_ hrest)
    cases s with
    | none => exact (by decide : Bare "")
    | some s => exact ht cid s

theorem state_line_bare (m : video_mixer.CTX) (cid : Int) (s : Stream) :
    Bare (state_line m cid s) := by
  unfold state_line
  cases m.get_channel_desc cid with
  | none => exact (by decide : Bare "")
  | some desc =>
    have hblank : Bare " " := by decide
    have hnewline : Bare "\n" := by decide
    refine bare_append (bare_append (bare_append (bare_append (bare_append (bare_append
      (bare_append (bare_append (bare_append (bare_append (bare_append (bare_append
        (bare_append ?_ hblank) ?_) hblank) ?_) hblank) ?_) hblank) ?_) hblank) ?_) hblank) ?_)
      hnewline <;> exact bare_text_i _

theorem stats_bare {stats : KVS} (hstats : BareMap stats) (h : BareMap results) :
    BareMap (stats.foldl (fun kvs kv => KVS.set kv.1 kv.2 kvs) results) := by
  induction stats generalizing results with
  | nil => exact h
  | cons kv stats ih =>
    obtain ⟨hkey, hvalue⟩ := hstats kv List.mem_cons_self
    exact ih (fun kv hkv => hstats kv (List.mem_cons_of_mem _ hkv)) (bare_set hkey hvalue h)

theorem getParams_bare (h : BareMap results) {texts : Texts} (hstats : BareMap texts.stats)
    (hfps : ∀ fps, Bare (texts.fps fps)) (params : KVS) :
    Returns (c.getParams texts params results) fun r => BareMap r.2.1 := by
  unfold Conference.getParams
  split
  · exact returns_ok h
  · split
    · rename_i info hchk
      exact returns_ok (bare_set (by decide) (bare_chk_params (by decide) hchk) h)
    · dsimp only
      split
      · unfold Conference.gp_v_desc
        split
        · exact returns_ok (bare_set (by decide) (by decide) h)
        · apply returns_bind
          intro s
          cases s with
          | none => exact returns_pure (bare_set (by decide) (by decide) h)
          | some s =>
            dsimp only
            split
            · exact returns_pure (bare_set (by decide) (by decide) h)
            · refine returns_pure ?_
              unfold desc_answer
              refine bare_set (by decide) (bare_text_i _) ?_
              refine bare_set (by decide) (bare_text_i _) ?_
              refine bare_set (by decide) (bare_text_i _) ?_
              refine bare_set (by decide) (bare_text_i _) ?_
              exact bare_set (by decide) (bare_text_i _) h
      · split
        · unfold Conference.gp_v_zorder
          have hcomma : Bare "," := by decide
          have hend : Bare "-1" := by decide
          refine (texts_of_bare (fun _ s => bare_append (bare_text_i _) hcomma) _).bind
            fun text ht => returns_pure ?_
          exact bare_set (by decide) (bare_append ht hend) h
        · split
          · refine returns_ok ?_
            refine bare_set (by decide) (bare_text_i _) ?_
            refine bare_set (by decide) (bare_text_i _) ?_
            refine bare_set (by decide) (hfps _) ?_
            refine bare_set (by decide) (bare_text_i _) ?_
            exact bare_set (by decide) (bare_text_i _) h
          · split
            · exact returns_ok (stats_bare hstats h)
            · split
              · unfold Conference.gp_v_comple_state
                exact (texts_of_bare (fun _ _ => state_line_bare _ _ _) _).bind fun text ht =>
                  returns_pure (bare_set (by decide) ht h)
              · exact returns_ok h

end

end zonekey_mcu.conference

namespace zonekey_mcu.server

/-! ## The texts that a client gave -/

/-- The texts that come from the machine itself, mostly numbers, have no '%'. -/
structure World.Bare (w : World) : Prop where
  ip : logging.Bare w.env.ip
  timestamp : logging.Bare w.timestamp
  sys_info : logging.Bare w.sys_info
  stats : BareMap w.texts.stats
  fps : ∀ fps, logging.Bare (w.texts.fps fps)

theorem still_bare : World.still.Bare :=
  ⟨by decide, by decide, by decide, bare_nil, fun _ => (by decide : logging.Bare "25.000000")⟩

/-- The line of an answer that repeats what clients have said of this conference. -/
def told_of (w : World) (params : KVS) (str_cmd : String) (c : Conference) :
    Option (List Char) :=
  if str_cmd = "info_conference" then some (response_line "ok"
    (util_encode_options (KVS.set "info" (w.info_of_conference c) [])))
  else if str_cmd = "set_params" ∧ c.unsupported params then some (response_line "err"
    (util_encode_options (KVS.set "reason" (unsupported_param (param params "name")) [])))
  else if str_cmd = "dc.list_streams" then some (response_line "ok"
    (util_encode_options (streams_answer c [])))
  else if str_cmd = "dc.get_all_videos" then some (response_line "ok"
    (util_encode_options (videos_answer c [])))
  else none

/-- The line of an answer that repeats a text of a client: a mode or a name that the server
does not know, or the descriptions of members. -/
def Server.told (s : Server) (w : World) (params : KVS) (str_cmd : String) :
    Option (List Char) :=
  if str_cmd = "create_conference" then
    if chk_params params ["mode"] = none ∧ s.conferences_.length < s.cap_max ∧
        mode_type (param params "mode") = none then
      some (response_line "err"
        (util_encode_options (KVS.set "reason" (unknown_mode (param params "mode")) [])))
    else none
  else (s.named params).bind (told_of w params str_cmd)

/-- The answer to a token repeats no text of a client that `fprintf` takes for a conversion. -/
def Server.tells_bare (s : Server) (w : World) (params : KVS) (str_cmd : String)
    (token : Token) : Prop :=
  token ≠ 0 → ∀ line, s.told w params str_cmd = some line → Printable line

/-- What a handler answers: the line that is told, or no '%'. -/
def Tells (x : Result) : Option (List Char) → Prop
  | some line => ∃ rc results s', x = .ok (rc, results, s') ∧
      line = response_line (result_text rc) (util_encode_options results)
  | none => Returns x fun r => BareMap r.2.1

variable {s : Server} {w : World} {params : KVS}

/-! ## The handlers -/

theorem bare_not_found {text : String} (htext : logging.Bare text) (cid : Int) :
    logging.Bare ("cid=" ++ text_i cid ++ text) :=
  bare_append (bare_append (by decide : logging.Bare "cid=") (bare_text_i cid)) htext

theorem call_on_bare {found : Option Conference} {call : Conference → conference.Result}
    (hcall : ∀ c, Returns (call c) fun r => BareMap r.2.1) :
    Returns (s.call_on found params [] call) fun r => BareMap r.2.1 := by
  unfold Server.call_on
  cases found with
  | none => exact returns_ok (bare_set (by decide) (bare_not_found (by decide) _) bare_nil)
  | some c => exact (hcall c).bind fun r h => returns_pure h

theorem handler_bare {find : Server → Int → Option Conference} {keys : List String}
    {call : Conference → conference.Result} (hkeys : ∀ key ∈ keys, logging.Bare key)
    (hcall : ∀ c, Returns (call c) fun r => BareMap r.2.1) :
    Returns (s.handler find keys params [] call) fun r => BareMap r.2.1 := by
  unfold Server.handler
  split
  · rename_i info hchk
    exact returns_ok (bare_set (by decide) (bare_chk_params hkeys hchk) bare_nil)
  · exact call_on_bare hcall

/-- A handler of one conference tells what it tells of that conference. -/
theorem handler_tells {call : Conference → conference.Result}
    {line : Conference → Option (List Char)}
    (hnone : ∀ c, line c = none → Returns (call c) fun r => BareMap r.2.1)
    (hsome : ∀ c l, line c = some l → ∃ rc results c', call c = .ok (rc, results, c') ∧
      l = response_line (result_text rc) (util_encode_options results)) :
    Tells (s.handler Server.find_conference ["cid"] params [] call)
      ((s.named params).bind line) := by
  unfold Server.handler Server.named Server.call_on
  cases hchk : chk_params params ["cid"] with
  | some info =>
    rw [if_neg (by simp)]
    exact returns_ok (bare_set (by decide) (bare_chk_params (by decide) hchk) bare_nil)
  | none =>
    rw [if_pos rfl]
    dsimp only
    cases s.find_conference (param_i params "cid") with
    | none => exact returns_ok (bare_set (by decide) (bare_not_found (by decide) _) bare_nil)
    | some c =>
      dsimp only [Option.bind_some]
      cases hline : line c with
      | none => exact (hnone c hline).bind fun r h => returns_pure h
      | some l =>
        obtain ⟨rc, results, c', hok, hl⟩ := hsome c l hline
        exact ⟨rc, results, _, by rw [hok]; rfl, hl⟩

theorem create_conference_tells :
    Tells (s.create_conference w params []) (s.told w params "create_conference") := by
  unfold Server.create_conference Server.told
  rw [if_pos rfl]
  cases hchk : chk_params params ["mode"] with
  | some info =>
    simp only [reduceCtorEq, false_and, if_false]
    exact returns_ok (bare_set (by decide) (bare_chk_params (by decide) hchk) bare_nil)
  | none =>
    dsimp only
    by_cases hcap : s.conferences_.length ≥ s.cap_max
    · rw [if_pos hcap, if_neg (by omega)]
      exact returns_ok (bare_set (by decide) (by decide) bare_nil)
    · rw [if_neg hcap]
      cases mode_type (param params "mode") with
      | none =>
        rw [if_pos ⟨rfl, by omega, rfl⟩]
        exact ⟨_, _, _, rfl, rfl⟩
      | some type =>
        rw [if_neg (by simp)]
        exact returns_ok (bare_set (by decide) (bare_text_i _) bare_nil)

theorem info_conference_tells :
    Tells (s.info_conference w params []) (s.told w params "info_conference") := by
  unfold Server.info_conference Server.told Server.named Server.find_conference
  rw [if_neg (by decide)]
  cases hchk : chk_params params ["cid"] with
  | some info =>
    rw [if_neg (by simp)]
    exact returns_ok (bare_set (by decide) (bare_chk_params (by decide) hchk) bare_nil)
  | none =>
    rw [if_pos rfl]
    dsimp only
    cases s.conferences_.find? fun c => c.cid_ = param_i params "cid" with
    | none => exact returns_ok (bare_set (by decide) (bare_not_found (by decide) _) bare_nil)
    | some c => exact ⟨_, _, _, rfl, rfl⟩

theorem set_params_tells :
    Tells (s.set_params params []) (s.told w params "set_params") := by
  have htold : s.told w params "set_params" =
      (s.named params).bind (told_of w params "set_params") := rfl
  rw [htold]
  refine handler_tells (fun c hno => setParams_bare bare_nil fun hyes => ?_) fun c l hline => ?_
  · simp [told_of, hyes] at hno
  · by_cases hyes : c.unsupported params
    · refine ⟨_, _, _, setParams_unsupported hyes, ?_⟩
      simp [told_of, hyes] at hline
      exact hline.symm
    · simp [told_of, hyes] at hline

theorem list_streams_tells :
    Tells (s.dc_list_streams params []) (s.told w params "dc.list_streams") := by
  have htold : s.told w params "dc.list_streams" =
      (s.named params).bind (told_of w params "dc.list_streams") := rfl
  rw [htold]
  refine handler_tells (fun c hno => ?_) fun c l hline => ⟨_, _, _, rfl, ?_⟩
  · simp [told_of] at hno
  · simp [told_of] at hline
    exact hline.symm

theorem get_all_videos_tells :
    Tells (s.dc_get_all_videos params []) (s.told w params "dc.get_all_videos") := by
  have htold : s.told w params "dc.get_all_videos" =
      (s.named params).bind (told_of w params "dc.get_all_videos") := rfl
  rw [htold]
  refine handler_tells (fun c hno => ?_) fun c l hline => ⟨_, _, _, rfl, ?_⟩
  · simp [told_of] at hno
  · simp [told_of] at hline
    exact hline.symm

/-- The commands that may repeat a text of a client. -/
def telling : List String :=
  ["create_conference", "info_conference", "set_params", "dc.list_streams", "dc.get_all_videos"]

theorem told_none {str_cmd : String} (h : str_cmd ∉ telling) : s.told w params str_cmd = none := by
  simp only [telling, List.mem_cons, List.not_mem_nil, or_false, not_or] at h
  obtain ⟨hcreate, hinfo, hset, hlist, hvideos⟩ := h
  unfold Server.told
  rw [if_neg hcreate]
  cases s.named params with
  | none => rfl
  | some c => simp [told_of, hinfo, hset, hlist, hvideos]

theorem tells_of_bare {str_cmd : String} {x : Result} (h : str_cmd ∉ telling)
    (hx : Returns x fun r => BareMap r.2.1) : Tells x (s.told w params str_cmd) := by
  rw [told_none h]
  exact hx

theorem fc_add_source_bare (hip : logging.Bare w.env.ip) :
    Returns (s.fc_add_source w params []) fun r => BareMap r.2.1 := by
  unfold Server.fc_add_source
  split
  · rename_i info hchk
    exact returns_ok (bare_set (by decide) (bare_chk_params (by decide) hchk) bare_nil)
  · dsimp only
    split
    · have hquote : logging.Bare "payload type '" := by decide
      have hend : logging.Bare "' not supported" := by decide
      exact returns_ok (bare_set (by decide)
        (bare_append (bare_append hquote (bare_text_i _)) hend) bare_nil)
    · exact call_on_bare fun c => addSource_bare bare_nil hip params

theorem fc_list_sources_bare :
    Returns (s.fc_list_sources params []) fun r => BareMap r.2.1 := by
  rw [fc_list_sources_eq]
  refine handler_bare (by decide) fun c => ?_
  split
  · exact returns_ok (bare_set (by decide) (by decide) bare_nil)
  · exact returns_error

theorem dc_add_stream_bare (hip : logging.Bare w.env.ip) (publisher : Bool) :
    Returns (s.dc_add_stream w params [] publisher) fun r => BareMap r.2.1 := by
  refine handler_bare (by decide) fun c => ?_
  cases publisher <;> exact addStreamWith_bare bare_nil hip _ _ params

theorem vs_exchange_bare :
    Returns (s.dc_vs_exchange_position params []) fun r => BareMap r.2.1 := by
  refine handler_bare (by decide) fun c => returns_bind fun r => ?_
  dsimp only
  split
  · exact returns_pure bare_nil
  · exact returns_pure (bare_set (by decide) (by decide) bare_nil)

theorem list_conferences_bare :
    Returns (s.list_conferences []) fun r => BareMap r.2.1 := by
  have hcomma : logging.Bare "," := by decide
  refine returns_ok (bare_set (by decide) (bare_join fun text ht => ?_) bare_nil)
  obtain ⟨c, -, rfl⟩ := List.mem_map.mp ht
  exact bare_append (bare_text_i _) hcomma

/-! ## The dispatcher -/

/-- One branch of the dispatcher. -/
theorem told_branch {name str_cmd : String} {x y : Result} {rest : Option Result}
    (hx : Tells x (s.told w params name))
    (hrest : rest = some y → Tells y (s.told w params str_cmd)) :
    (if str_cmd = name then some x else rest) = some y → Tells y (s.told w params str_cmd) := by
  intro h
  split at h
  · rename_i hcmd
    cases h
    rw [hcmd]
    exact hx
  · exact hrest h

/-- A branch whose answer has no '%'. -/
theorem bare_branch {name str_cmd : String} {x y : Result} {rest : Option Result}
    (hx : Returns x fun r => BareMap r.2.1) (hname : name ∉ telling)
    (hrest : rest = some y → Tells y (s.told w params str_cmd)) :
    (if str_cmd = name then some x else rest) = some y → Tells y (s.told w params str_cmd) :=
  told_branch (tells_of_bare hname hx) hrest

theorem dispatch_tells (hw : w.Bare) {str_cmd : String} {x : Result} :
    s.dispatch w params str_cmd = some x → Tells x (s.told w params str_cmd) := by
  unfold Server.dispatch
  apply told_branch create_conference_tells
  apply bare_branch list_conferences_bare (by decide)
  apply told_branch info_conference_tells
  apply told_branch set_params_tells
  apply bare_branch (handler_bare (by decide) fun _ =>
    getParams_bare bare_nil hw.stats hw.fps params) (by decide)
  apply bare_branch (fc_add_source_bare hw.ip) (by decide)
  apply bare_branch (handler_bare (by decide) fun _ => delSource_bare bare_nil params)
    (by decide)
  apply bare_branch fc_list_sources_bare (by decide)
  apply bare_branch (handler_bare (by decide) fun _ => addSink_bare bare_nil hw.ip params)
    (by decide)
  apply bare_branch (handler_bare (by decide) fun _ => delSink_bare bare_nil params) (by decide)
  apply bare_branch (dc_add_stream_bare hw.ip false) (by decide)
  apply bare_branch (handler_bare (by decide) fun _ => delStream_bare bare_nil params)
    (by decide)
  apply bare_branch (dc_add_stream_bare hw.ip true) (by decide)
  apply told_branch list_streams_tells
  apply bare_branch (handler_bare (by decide) fun _ => addSource_bare bare_nil hw.ip params)
    (by decide)
  apply bare_branch (handler_bare (by decide) fun _ => delSource_bare bare_nil params)
    (by decide)
  apply bare_branch (handler_bare (by decide) fun _ => addSink_bare bare_nil hw.ip params)
    (by decide)
  apply bare_branch (handler_bare (by decide) fun _ => delSink_bare bare_nil params) (by decide)
  apply told_branch get_all_videos_tells
  apply bare_branch vs_exchange_bare (by decide)
  intro h
  cases h

/-! ## Every command -/

theorem result_text_bare (rc : Int) : logging.Bare (result_text rc) := by
  unfold result_text
  split <;> decide

theorem printable_response {result param : String} (hresult : logging.Bare result)
    (hparam : logging.Bare param) : Printable (response_line result param) := by
  have hline : logging.Bare ("\tresponse: result=" ++ result ++ ", param=" ++ param ++ "\n") := by
    have hstart : logging.Bare "\tresponse: result=" := by decide
    have hmiddle : logging.Bare ", param=" := by decide
    exact bare_append (bare_append (bare_append (bare_append hstart hresult) hmiddle) hparam)
      (by decide)
  unfold logging.Bare at hline
  simp only [String.toList_append] at hline
  exact printable_of_bare hline

theorem respond_log_printable {token : Token} {result param : String}
    (h : token ≠ 0 → Printable (response_line result param)) :
    respond_log token result param = .ok (respond token result (some param)) := by
  rcases respond_log_cases token result param with ⟨hok, -⟩ | ⟨-, hne, hno⟩
  · exact hok
  · exact absurd (h hne) hno

/-- An answer with no '%' goes out. -/
theorem respond_log_bare (token : Token) {result : String} {results : KVS}
    (hresult : logging.Bare result) (h : BareMap results) :
    respond_log token result (util_encode_options results) =
      .ok (respond token result (some (util_encode_options results))) :=
  respond_log_printable fun _ => printable_response hresult (bare_encode h)

theorem destroy_conference_bare :
    Returns (s.destroy_conference params []) fun r => BareMap r.2.1 := by
  unfold Server.destroy_conference
  split
  · rename_i info hchk
    exact returns_ok (bare_set (by decide) (bare_chk_params (by decide) hchk) bare_nil)
  · dsimp only
    split
    · exact returns_ok (bare_set (by decide) (bare_not_found (by decide) _) bare_nil)
    · exact returns_bind fun _ => returns_pure
        (bare_set (by decide) (bare_not_found (by decide) _) bare_nil)

theorem reg_notify_bare (jid : String) (token : Token) :
    Returns (s.reg_notify jid token params []) fun r => BareMap r.2.1 :=
  handler_bare (by decide) fun _ => returns_ok bare_nil

variable {str_cmd jid : String} {token : Token}

/-- The answer of a command can be logged when the line that it tells can. -/
theorem ServerSound.command_printable (h : ServerSound s) (hw : w.Bare)
    (hp : s.tells_bare w params str_cmd token) :
    s.command w jid str_cmd params token ≠ .error .missingArgument := by
  unfold Server.command
  split
  · have hversion : logging.Bare (version_str w) :=
      bare_append (by decide : logging.Bare "v0.4.8.18: build at: ") hw.timestamp
    rw [respond_log_printable fun _ => printable_response (by decide) hversion]
    exact nofun
  · split
    · rw [respond_log_printable fun _ => printable_response (by decide) hw.sys_info]
      exact nofun
    · split
      · rcases destroy_conference_cases h params with ⟨-, c, e, -, herr, he, -⟩ |
          ⟨results, hok⟩ | ⟨-, before, c, after, results, tokens, -, -, hok⟩
        · rw [herr]
          rcases he with rfl | rfl <;> exact nofun
        · have hbare := destroy_conference_bare _ hok
          rw [hok, ok_bind]
          dsimp only
          rw [respond_log_bare token (result_text_bare _) hbare]
          exact nofun
        · have hbare := destroy_conference_bare _ hok
          rw [hok, ok_bind]
          dsimp only
          rw [respond_log_bare token (result_text_bare _) hbare]
          exact nofun
      · split
        · rcases reg_notify_cases s jid token params with ⟨results, hok⟩ |
            ⟨-, before, c, after, tokens, -, -, hok⟩
          · have hbare := reg_notify_bare jid token _ hok
            rw [hok, ok_bind]
            dsimp only
            rw [if_pos (by decide), respond_log_bare token (by decide) hbare]
            exact nofun
          · rw [hok]
            exact nofun
        · split
          · rename_i x hx
            have htells := dispatch_tells hw hx
            rcases h.dispatch_ends hx with ⟨-, e, rfl, he⟩ | ⟨-, rfl, -⟩ |
              ⟨-, rc, results, s', rfl, -⟩
            · rcases he with rfl | rfl <;> exact nofun
            · exact nofun
            · rw [ok_bind]
              dsimp only
              split
              · exact nofun
              · rw [respond_log_printable]
                · exact nofun
                · intro hne
                  cases htold : s.told w params str_cmd with
                  | none =>
                    rw [htold] at htells
                    exact printable_response (result_text_bare _)
                      (bare_encode (htells _ rfl))
                  | some line =>
                    rw [htold] at htells
                    obtain ⟨rc', results', s'', hsame, hline⟩ := htells
                    cases hsame
                    exact hline ▸ hp hne line htold
          · exact nofun

/-- A line that is told ends the process when it has a conversion. -/
theorem command_unprintable (hw : w.Bare) {line : List Char} (hne : token ≠ 0)
    (htold : s.told w params str_cmd = some line) (hno : ¬ Printable line) :
    s.command w jid str_cmd params token = .error .missingArgument := by
  have htelling : str_cmd ∈ telling := by
    by_contra hn
    rw [told_none hn] at htold
    cases htold
  obtain ⟨x, hx⟩ : ∃ x, s.dispatch w params str_cmd = some x := by
    simp only [telling, List.mem_cons, List.not_mem_nil, or_false] at htelling
    rcases htelling with rfl | rfl | rfl | rfl | rfl <;> exact ⟨_, rfl⟩
  have htells := dispatch_tells hw hx
  rw [htold] at htells
  obtain ⟨rc, results, s', rfl, hline⟩ := htells
  have herr : respond_log token (result_text rc) (util_encode_options results) =
      .error .missingArgument := by
    rcases respond_log_cases token (result_text rc) (util_encode_options results) with
      ⟨-, hyes⟩ | ⟨herr, -⟩
    · exact absurd (hline ▸ hyes hne) hno
    · exact herr
  have hnot : ∀ name, name ∉ telling → str_cmd ≠ name := fun name hname hcmd =>
    hname (hcmd ▸ htelling)
  unfold Server.command
  rw [if_neg (not_or.mpr ⟨hnot _ (by decide), hnot _ (by decide)⟩), if_neg (hnot _ (by decide)),
    if_neg (hnot _ (by decide)), if_neg (hnot _ (by decide)), hx]
  dsimp only
  rw [ok_bind]
  dsimp only
  rw [if_neg (hnot _ (by decide)), herr]
  rfl

end zonekey_mcu.server
