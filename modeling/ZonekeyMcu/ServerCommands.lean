-- What a command does to the server. Most commands make one call on one conference,
-- and the server follows that call. The others read, make a conference, or end one.
import ZonekeyMcu.Destruction
import ZonekeyMcu.Server

open runs zonekey_mcu.members zonekey_mcu.options zonekey_mcu.conference zonekey_mcu.logging

namespace zonekey_mcu.server

/-- The keys that a command on one conference must have, and the call that it makes. -/
def route (w : World) (params : KVS) (str_cmd : String) : Option (List String × Call) :=
  if str_cmd = "set_params" then some (["cid"], .setParams params)
  else if str_cmd = "fc.add_source" then some (["cid", "payload"], .addSource w.env params)
  else if str_cmd = "fc.del_source" then some (["cid", "sid"], .delSource params)
  else if str_cmd = "fc.add_sink" then some (["cid", "sid"], .addSink w.env params)
  else if str_cmd = "fc.del_sink" then some (["cid", "sinkid"], .delSink params)
  else if str_cmd = "dc.add_stream" then some (["cid", "payload"], .addStream w.env params)
  else if str_cmd = "dc.del_stream" then some (["cid", "streamid"], .delStream params)
  else if str_cmd = "dc.add_stream_with_publisher" then
    some (["cid", "payload"], .addStreamWithPublisher w.env params)
  else if str_cmd = "dc.add_source" then some (["cid", "payload"], .addSource w.env params)
  else if str_cmd = "dc.del_source" then some (["cid", "sid"], .delSource params)
  else if str_cmd = "dc.add_sink" then some (["cid", "sid"], .addSink w.env params)
  else if str_cmd = "dc.del_sink" then some (["cid", "sinkid"], .delSink params)
  else if str_cmd = "dc.vs_exchange_position" then some (["cid", "id1", "id2"],
    .vs_exchange_position (param_i params "id1") (param_i params "id2"))
  else none

/-- The commands that make a call. -/
def calling : List String :=
  ["set_params", "fc.add_source", "fc.del_source", "fc.add_sink", "fc.del_sink", "dc.add_stream",
    "dc.del_stream", "dc.add_stream_with_publisher", "dc.add_source", "dc.del_source",
    "dc.add_sink", "dc.del_sink", "dc.vs_exchange_position"]

theorem not_calling {w : World} {params : KVS} {str_cmd : String}
    (h : route w params str_cmd = none) : str_cmd ∉ calling := by
  intro hm
  simp only [calling, List.mem_cons, List.not_mem_nil, or_false] at hm
  rcases hm with rfl | rfl | rfl | rfl | rfl | rfl | rfl | rfl | rfl | rfl | rfl | rfl | rfl <;>
    cases h

/-- The conference that a command names. -/
def Server.named (s : Server) (params : KVS) : Option Conference :=
  if chk_params params ["cid"] = none then s.find_conference (param_i params "cid") else none

/-- The conference that a command names, with all its keys, and the call on it. -/
def Server.called (s : Server) (w : World) (params : KVS) (str_cmd : String) :
    Option (Conference × Call) :=
  match route w params str_cmd with
  | none => none
  | some (keys, call) =>
    if chk_params params keys = none then
      (s.find_conference (param_i params "cid")).map fun c => (c, call)
    else none

/-! ## The conference with an id -/

/-- What the server relies on: each conference is sound, and its id is positive. -/
structure ServerSound (s : Server) : Prop where
  sound : ∀ c ∈ s.conferences_, Sound c
  positive : ∀ c ∈ s.conferences_, 0 < c.cid_
  next : 0 < s.next_id_

variable {s : Server} {w : World} {params : KVS}

theorem find_conference_mem {cid : Int} {c : Conference} (h : s.find_conference cid = some c) :
    c ∈ s.conferences_ := List.mem_of_find?_eq_some h

theorem called_mem {str_cmd : String} {c : Conference} {call : Call}
    (h : s.called w params str_cmd = some (c, call)) : c ∈ s.conferences_ := by
  unfold Server.called at h
  split at h
  · cases h
  · split at h
    · obtain ⟨d, hd, heq⟩ := Option.map_eq_some_iff.mp h
      cases heq
      exact find_conference_mem hd
    · cases h

/-- The check for -1 changes nothing. -/
theorem ServerSound.find_conference' (h : ServerSound s) (cid : Int) :
    s.find_conference' cid = s.find_conference cid := by
  unfold Server.find_conference'
  split
  · rename_i hcid
    symm
    unfold Server.find_conference
    rw [List.find?_eq_none]
    intro c hc
    have := h.positive c hc
    simp only [decide_eq_true_eq]
    omega
  · rfl

/-- The place of the conference that is found. -/
theorem find_conference_split {cid : Int} {c : Conference}
    (h : s.find_conference cid = some c) : ∃ before after,
      s.conferences_ = before ++ c :: after ∧ c.cid_ = cid ∧
      ∀ c', s.set_conference cid c' = { s with conferences_ := before ++ c' :: after } := by
  unfold Server.find_conference at h
  obtain ⟨hcid, before, after, hsplit, hbefore⟩ := List.find?_eq_some_iff_append.mp h
  refine ⟨before, after, hsplit, of_decide_eq_true hcid, fun c' => ?_⟩
  have hidx : (s.conferences_.findIdx fun c => decide (c.cid_ = cid)) = before.length := by
    rw [hsplit, List.findIdx_append, List.findIdx_cons, hcid]
    rw [List.findIdx_eq_length.mpr fun b hb => by simpa using hbefore b hb]
    simp
  unfold Server.set_conference
  rw [hidx]
  congr 1
  rw [hsplit, List.set_append_right _ _ (Nat.le_refl _), Nat.sub_self, List.set_cons_zero]

/-- The conference that is found takes its own place. -/
theorem set_conference_self {cid : Int} {c : Conference} (h : s.find_conference cid = some c) :
    s.set_conference cid c = s := by
  obtain ⟨before, after, hsplit, -, hset⟩ := find_conference_split h
  rw [hset, ← hsplit]

/-! ## Commands that make a call -/

/-- The answer of a command that makes a call: it is refused before the call, or it
ends as the call does. -/
def Server.Follows (s : Server) (params : KVS) (keys : List String) (call : Call) (x : Result) :
    Prop :=
  match (if chk_params params keys = none then s.find_conference (param_i params "cid")
    else none) with
  | none => ∃ results, x = .ok (-1, results, s)
  | some c =>
    (∃ e, c.call call = .error e ∧ x = .error e) ∨
    ∃ rc rc' c' results, c.call call = .ok (rc, c') ∧ (rc < 0 → rc' < 0) ∧
      x = .ok (rc', results, s.set_conference (param_i params "cid") c')

theorem handler_follows {find : Server → Int → Option Conference} {keys : List String}
    {call : Call} {f : Conference → conference.Result}
    (hfind : ∀ cid, find s cid = s.find_conference cid)
    (hcall : ∀ c, c.call call = (f c).map fun r => (r.1, r.2.2)) :
    s.Follows params keys call (s.handler find keys params [] f) := by
  unfold Server.Follows Server.handler
  cases hchk : chk_params params keys with
  | some info =>
    rw [if_neg (by simp)]
    exact ⟨_, rfl⟩
  | none =>
    rw [if_pos rfl, hfind]
    unfold Server.call_on
    cases s.find_conference (param_i params "cid") with
    | none => exact ⟨_, rfl⟩
    | some c =>
      dsimp only
      rw [hcall]
      cases f c with
      | error e => exact Or.inl ⟨e, rfl, rfl⟩
      | ok r => exact Or.inr ⟨r.1, r.1, r.2.2, r.2.1, rfl, id, rfl⟩

/-- The check of the payload comes first, and is that of the call. -/
theorem fc_add_source_follows :
    s.Follows params ["cid", "payload"] (.addSource w.env params)
      (s.fc_add_source w params []) := by
  have hhandler : s.Follows params ["cid", "payload"] (.addSource w.env params)
      (s.handler Server.find_conference ["cid", "payload"] params [] fun c =>
        c.addSource w.env params []) := handler_follows (fun _ => rfl) fun _ => rfl
  unfold Server.Follows Server.handler at hhandler
  unfold Server.Follows Server.fc_add_source
  cases hchk : chk_params params ["cid", "payload"] with
  | some info =>
    rw [if_neg (by simp)]
    exact ⟨_, rfl⟩
  | none =>
    rw [hchk, if_pos rfl] at hhandler
    rw [if_pos rfl]
    dsimp only at hhandler ⊢
    by_cases hpay : param_i params "payload" ≠ 100 ∧ param_i params "payload" ≠ 110
    · rw [if_pos hpay]
      cases hfind : s.find_conference (param_i params "cid") with
      | none => exact ⟨_, rfl⟩
      | some c =>
        rcases addSource_cases c w.env params [] with ⟨hno, -⟩ | ⟨-, -, hyes⟩
        · have hcall : c.call (.addSource w.env params) = .ok (-1, c) := by
            unfold Conference.call
            dsimp only
            rw [hno]
            rfl
          have hself := set_conference_self hfind
          exact Or.inr ⟨-1, -1, c, _, hcall, id, by rw [hself]⟩
        · exact absurd hyes (not_or.mpr hpay)
    · rw [if_neg hpay]
      exact hhandler

theorem vs_exchange_follows :
    s.Follows params ["cid", "id1", "id2"]
      (.vs_exchange_position (param_i params "id1") (param_i params "id2"))
      (s.dc_vs_exchange_position params []) := by
  unfold Server.Follows Server.dc_vs_exchange_position Server.handler
  cases hchk : chk_params params ["cid", "id1", "id2"] with
  | some info =>
    rw [if_neg (by simp)]
    exact ⟨_, rfl⟩
  | none =>
    rw [if_pos rfl]
    unfold Server.call_on
    dsimp only
    cases s.find_conference (param_i params "cid") with
    | none => exact ⟨_, rfl⟩
    | some c =>
      dsimp only
      unfold Conference.call
      dsimp only
      cases c.vs_exchange_position (param_i params "id1") (param_i params "id2") with
      | error e => exact Or.inl ⟨e, rfl, rfl⟩
      | ok r =>
        obtain ⟨rc, c'⟩ := r
        right
        simp only [ok_bind]
        by_cases hrc : rc = 0
        · rw [if_pos hrc]
          exact ⟨rc, 0, c', [], rfl, fun hn => by omega, rfl⟩
        · rw [if_neg hrc]
          exact ⟨rc, -1, c', _, rfl, fun _ => by decide, rfl⟩

/-- One line of the table of calls: the command by this name follows its call, and the
others are in the lines below. -/
theorem routed {name str_cmd : String} {keys keys' : List String} {call call' : Call} {x : Result}
    {rest : Option (List String × Call)} (hname : s.dispatch w params name = some x)
    (hx : s.Follows params keys' call' x)
    (hrest : rest = some (keys, call) →
      ∃ x, s.dispatch w params str_cmd = some x ∧ s.Follows params keys call x) :
    (if str_cmd = name then some (keys', call') else rest) = some (keys, call) →
      ∃ x, s.dispatch w params str_cmd = some x ∧ s.Follows params keys call x := by
  intro hroute
  split at hroute
  · rename_i hcmd
    cases hroute
    subst hcmd
    exact ⟨x, hname, hx⟩
  · exact hrest hroute

/-- Each command that makes a call follows it. -/
theorem ServerSound.dispatch_follows (h : ServerSound s) {str_cmd : String} {keys : List String}
    {call : Call} (hroute : route w params str_cmd = some (keys, call)) :
    ∃ x, s.dispatch w params str_cmd = some x ∧ s.Follows params keys call x := by
  revert hroute
  unfold route
  apply routed rfl (handler_follows (fun _ => rfl) fun _ => rfl)
  apply routed rfl fc_add_source_follows
  apply routed rfl (handler_follows (fun _ => rfl) fun _ => rfl)
  apply routed rfl (handler_follows h.find_conference' fun _ => rfl)
  apply routed rfl (handler_follows h.find_conference' fun _ => rfl)
  apply routed rfl (handler_follows h.find_conference' fun _ => rfl)
  apply routed rfl (handler_follows h.find_conference' fun _ => rfl)
  apply routed rfl (handler_follows h.find_conference' fun _ => rfl)
  apply routed rfl (handler_follows h.find_conference' fun _ => rfl)
  apply routed rfl (handler_follows h.find_conference' fun _ => rfl)
  apply routed rfl (handler_follows h.find_conference' fun _ => rfl)
  apply routed rfl (handler_follows h.find_conference' fun _ => rfl)
  apply routed rfl vs_exchange_follows
  intro hroute
  cases hroute

/-! ## Commands that only read -/

/-- A command that reads a conference ends and changes nothing. -/
def Server.Reads (s : Server) (x : Result) : Prop := ∃ rc results, x = .ok (rc, results, s)

theorem handler_reads {find : Server → Int → Option Conference} {keys : List String}
    {f : Conference → conference.Result} (hfind : ∀ cid, find s cid = s.find_conference cid)
    (hf : ∀ c ∈ s.conferences_, ∃ rc results, f c = .ok (rc, results, c)) :
    s.Reads (s.handler find keys params [] f) := by
  unfold Server.handler
  cases chk_params params keys with
  | some info => exact ⟨_, _, rfl⟩
  | none =>
    dsimp only
    rw [hfind]
    unfold Server.call_on
    cases hc : s.find_conference (param_i params "cid") with
    | none => exact ⟨_, _, rfl⟩
    | some c =>
      obtain ⟨rc, results, hok⟩ := hf c (find_conference_mem hc)
      refine ⟨rc, results, ?_⟩
      dsimp only
      rw [hok, ok_bind, set_conference_self hc]
      rfl

theorem info_conference_reads : s.Reads (s.info_conference w params []) := by
  unfold Server.info_conference
  split
  · exact ⟨_, _, rfl⟩
  · dsimp only
    split <;> exact ⟨_, _, rfl⟩

theorem sources_loop_nil (it : List Conference) (ss : String) : sources_loop it [] ss = .ok ss := by
  cases it <;> rfl

/-- With a description, the loop moves `it` until it leaves the end. -/
theorem sources_loop_cons (it : List Conference) (d : SourceDescription)
    (it2 : List SourceDescription) (ss : String) :
    sources_loop it (d :: it2) ss = .error .outOfBounds := by
  induction it generalizing ss with
  | nil => rfl
  | cons c it ih =>
    rw [sources_loop]
    exact ih (ss ++ source_line d)

theorem get_all_source_descriptions (c : Conference) :
    c.get_source_descriptions (-1) = c.sources_.map source_description := by
  simp [Conference.get_source_descriptions]

/-- The search stops at the conference that `find_conference` finds. -/
theorem search_eq (s : Server) (cid : Int) :
    (∃ conf it, s.conferences_.dropWhile (fun c => c.cid_ ≠ cid) = conf :: it ∧
        s.find_conference cid = some conf) ∨
      s.conferences_.dropWhile (fun c => c.cid_ ≠ cid) = [] ∧ s.find_conference cid = none := by
  unfold Server.find_conference
  induction s.conferences_ with
  | nil => exact .inr ⟨rfl, rfl⟩
  | cons c cs ih =>
    by_cases hc : c.cid_ = cid
    · refine .inl ⟨c, cs, ?_, ?_⟩
      · simp [hc]
      · simp [hc]
    · simpa [List.dropWhile_cons, hc] using ih

/-- The handler lists no source, or its loop leaves the list of the conferences. -/
theorem fc_list_sources_eq (results : KVS) : s.fc_list_sources params results =
    s.handler Server.find_conference ["cid"] params results fun c =>
      if c.sources_ = [] then .ok (0, KVS.set "sources" "" results, c)
      else .error .outOfBounds := by
  unfold Server.fc_list_sources Server.handler
  cases chk_params params ["cid"] with
  | some info => rfl
  | none =>
    dsimp only
    unfold Server.call_on
    rcases search_eq s (param_i params "cid") with ⟨c, it, hsearch, hfind⟩ | ⟨hsearch, hfind⟩
    · rw [hsearch, hfind]
      simp only [get_all_source_descriptions]
      cases hsources : c.sources_ with
      | nil =>
        rw [List.map_nil, sources_loop_nil, if_pos rfl, ok_bind, ok_bind,
          set_conference_self hfind]
      | cons src rest =>
        rw [List.map_cons, sources_loop_cons, if_neg (List.cons_ne_nil _ _)]
        rfl
    · rw [hsearch, hfind]

/-! ## Conferences come and go -/

/-- The server with one more conference. -/
def Server.created (s : Server) (w : World) (type : ConferenceType) (desc : String) : Server :=
  { s with
    conferences_ := s.conferences_ ++
      [(Conference.new type w.env w.want_alpha s.next_id_).set_desc desc]
    next_id_ := next_cid s.next_id_ }

/-- The request for a conference that is not made. -/
def Server.not_created (s : Server) (params : KVS) : Prop :=
  chk_params params ["mode"] ≠ none ∨ s.cap_max ≤ s.conferences_.length ∨
    mode_type (param params "mode") = none

theorem create_conference_cases (s : Server) (w : World) (params : KVS) :
    (s.not_created params ∧ ∃ results, s.create_conference w params [] = .ok (-1, results, s)) ∨
    (¬ s.not_created params ∧ ∃ results type desc,
      s.create_conference w params [] = .ok (0, results, s.created w type desc)) := by
  unfold Server.not_created Server.create_conference
  cases hchk : chk_params params ["mode"] with
  | some info => exact Or.inl ⟨Or.inl (by simp), _, rfl⟩
  | none =>
    dsimp only
    by_cases hcap : s.conferences_.length ≥ s.cap_max
    · rw [if_pos hcap]
      exact Or.inl ⟨Or.inr (Or.inl hcap), _, rfl⟩
    · rw [if_neg hcap]
      cases hmode : mode_type (param params "mode") with
      | none => exact Or.inl ⟨Or.inr (Or.inr rfl), _, rfl⟩
      | some type =>
        right
        refine ⟨?_, _, type, param_or_empty params "desc", rfl⟩
        rintro (hno | hno | hno)
        · exact hno rfl
        · exact hcap hno
        · cases hno

/-- The destructor of the conference goes wrong: it is a free conference with a source, or its
z-order array has lost its end. -/
def Conference.ends_badly (c : Conference) : Prop :=
  (c.type = .CT_FREE ∧ c.sources_ ≠ []) ∨ ¬ c.filters.video_mixer.has_end

theorem destroy_conference_cases (h : ServerSound s) (params : KVS) :
    (chk_params params ["cid"] = none ∧ ∃ c e,
      s.find_conference (param_i params "cid") = some c ∧
      s.destroy_conference params [] = .error e ∧ (e = .useAfterDelete ∨ e = .outOfBounds) ∧
      Conference.ends_badly c) ∨
    (∃ results, s.destroy_conference params [] = .ok (-1, results, s, [])) ∨
    (chk_params params ["cid"] = none ∧ ∃ before c after results tokens,
      s.find_conference (param_i params "cid") = some c ∧
      s.conferences_ = before ++ c :: after ∧ s.destroy_conference params [] =
        .ok (0, results, { s with conferences_ := before ++ after }, tokens)) := by
  unfold Server.destroy_conference Server.find_conference
  cases hchk : chk_params params ["cid"] with
  | some info => exact Or.inr (Or.inl ⟨_, rfl⟩)
  | none =>
    dsimp only
    cases hfind : s.conferences_.find? fun c => c.cid_ = param_i params "cid" with
    | none => exact Or.inr (Or.inl ⟨_, rfl⟩)
    | some c =>
      obtain ⟨before, after, hsplit, herase, -⟩ := find_split hfind
      dsimp only
      rcases (h.sound c (List.mem_of_find?_eq_some hfind)).destroy with
        ⟨mem, tokens, hok, -⟩ | ⟨herr, htype, hsome⟩ | ⟨herr, hno⟩
      · refine Or.inr (Or.inr ⟨rfl, before, c, after,
          KVS.set "info" ("cid=" ++ text_i (param_i params "cid") ++ ", released!") [], tokens, rfl,
          hsplit, ?_⟩)
        simp only [hok, ok_bind, herase, pure_eq_ok]
      · exact Or.inl ⟨rfl, c, .useAfterDelete, rfl, by simp only [herr, error_bind], Or.inl rfl,
          Or.inl ⟨htype, hsome⟩⟩
      · exact Or.inl ⟨rfl, c, .outOfBounds, rfl, by simp only [herr, error_bind], Or.inr rfl,
          Or.inr hno⟩

/-! ## All commands -/

/-- What a command that ends has done to the server. -/
inductive Served (s : Server) (w : World) (params : KVS) (str_cmd : String) : Server → Prop
  | same : Served s w params str_cmd s
  | created (hcmd : str_cmd = "create_conference") (hok : ¬ s.not_created params)
      (type : ConferenceType) (desc : String) :
      Served s w params str_cmd (s.created w type desc)
  | destroyed {before after : List Conference} {c : Conference}
      (h : s.conferences_ = before ++ c :: after) :
      Served s w params str_cmd { s with conferences_ := before ++ after }
  | called {before after : List Conference} {c c' : Conference} {call : Call}
      (h : s.conferences_ = before ++ c :: after)
      (hcalled : s.called w params str_cmd = some (c, call)) (he : Effect c call c') :
      Served s w params str_cmd { s with conferences_ := before ++ c' :: after }
  | registered {before after : List Conference} {c : Conference}
      (reg_notify_tokens_ : List (String × List Token))
      (h : s.conferences_ = before ++ c :: after) :
      Served s w params str_cmd
        { s with conferences_ := before ++ { c with reg_notify_tokens_ } :: after }

/-- The command makes a call that trips an assert, or a null filter. -/
def Server.trips (s : Server) (w : World) (params : KVS) (str_cmd : String) : Prop :=
  ∃ c call, s.called w params str_cmd = some (c, call) ∧ c.call_trips call

/-- The command runs past an array or walks a deleted list: it lists the sources of a
conference that has some, goes through a z-order array that has lost its end, or ends a
conference that ends badly. -/
def Server.runs_off (s : Server) (w : World) (params : KVS) (str_cmd : String) : Prop :=
  (str_cmd = "fc.list_sources" ∧ ∃ c, s.named params = some c ∧ c.sources_ ≠ []) ∨
  (∃ c call, s.called w params str_cmd = some (c, call) ∧ c.walks call ∧
    ¬ c.filters.video_mixer.has_end) ∨
  (str_cmd = "destroy_conference" ∧ ∃ c, s.named params = some c ∧ Conference.ends_badly c)

/-- How a command can end, with its return code and the server after it. -/
def Server.Ends (s : Server) (w : World) (params : KVS) (str_cmd : String) (x : Result) : Prop :=
  (s.trips w params str_cmd ∧ ∃ e, x = .error e ∧ conference.trips e) ∨
  (¬ s.trips w params str_cmd ∧ x = .error .outOfBounds ∧ s.runs_off w params str_cmd) ∨
  (¬ s.trips w params str_cmd ∧ ∃ rc results s', x = .ok (rc, results, s') ∧
    Served s w params str_cmd s')

variable {str_cmd : String}

theorem not_trips_of_route (hroute : route w params str_cmd = none) :
    ¬ s.trips w params str_cmd := by
  rintro ⟨c, call, hcalled, -⟩
  unfold Server.called at hcalled
  rw [hroute] at hcalled
  cases hcalled

theorem Server.Reads.ends {x : Result} (h : s.Reads x) (hroute : route w params str_cmd = none) :
    s.Ends w params str_cmd x := by
  obtain ⟨rc, results, rfl⟩ := h
  exact Or.inr (Or.inr ⟨not_trips_of_route hroute, rc, results, s, rfl, .same⟩)

theorem called_of_route {keys : List String} {call : Call}
    (hroute : route w params str_cmd = some (keys, call)) :
    s.called w params str_cmd =
      (if chk_params params keys = none then s.find_conference (param_i params "cid")
        else none).map fun c => (c, call) := by
  unfold Server.called
  rw [hroute]
  dsimp only
  split <;> rfl

/-- The list of the sources ends when there are none, or when no conference is named. -/
theorem fc_list_sources_ends :
    s.Ends w params "fc.list_sources" (s.fc_list_sources params []) := by
  have hno : ¬ s.trips w params "fc.list_sources" := not_trips_of_route rfl
  by_cases hsome : ∃ c, s.named params = some c ∧ c.sources_ ≠ []
  · obtain ⟨c, hnamed, hsources⟩ := hsome
    refine Or.inr (Or.inl ⟨hno, ?_, Or.inl ⟨rfl, c, hnamed, hsources⟩⟩)
    unfold Server.named at hnamed
    split at hnamed
    · rename_i hchk
      rw [fc_list_sources_eq]
      unfold Server.handler Server.call_on
      rw [hchk, hnamed]
      dsimp only
      rw [if_neg hsources]
      rfl
    · cases hnamed
  · have hreads : s.Reads (s.fc_list_sources params []) := by
      rw [fc_list_sources_eq]
      unfold Server.handler Server.call_on
      cases hchk : chk_params params ["cid"] with
      | some info => exact ⟨_, _, rfl⟩
      | none =>
        dsimp only
        cases hfind : s.find_conference (param_i params "cid") with
        | none => exact ⟨_, _, rfl⟩
        | some c =>
          have hnil : c.sources_ = [] := by
            by_contra hne
            refine hsome ⟨c, ?_, hne⟩
            unfold Server.named
            rw [if_pos hchk, hfind]
          dsimp only
          rw [if_pos hnil, ok_bind, set_conference_self hfind]
          exact ⟨_, _, rfl⟩
    exact hreads.ends rfl

/-- A command that makes a call ends as the call does. -/
theorem ServerSound.follows_ends (h : ServerSound s) {keys : List String} {call : Call}
    (hroute : route w params str_cmd = some (keys, call)) {x : Result}
    (hx : s.Follows params keys call x) : s.Ends w params str_cmd x := by
  have hcalled := called_of_route (s := s) hroute
  unfold Server.Follows at hx
  cases hfind : (if chk_params params keys = none then s.find_conference (param_i params "cid")
      else none) with
  | none =>
    rw [hfind] at hx hcalled
    obtain ⟨results, rfl⟩ := hx
    refine Or.inr (Or.inr ⟨?_, -1, results, s, rfl, .same⟩)
    rintro ⟨c, call', hno, -⟩
    rw [hcalled] at hno
    cases hno
  | some c =>
    rw [hfind] at hx hcalled
    have hc : s.find_conference (param_i params "cid") = some c := by
      split at hfind
      · exact hfind
      · cases hfind
    have htrips : s.trips w params str_cmd ↔ c.call_trips call := by
      constructor
      · rintro ⟨c', call', hsome, ht⟩
        rw [hcalled] at hsome
        cases hsome
        exact ht
      · exact fun ht => ⟨c, call, hcalled, ht⟩
    have hends := (h.sound c (find_conference_mem hc)).call call
    rcases hx with ⟨e, herr, rfl⟩ | ⟨rc, rc', c', results, hok, -, rfl⟩
    · rcases hends with ⟨ht, e', herr', he⟩ | ⟨ht, herr', hwalks⟩ | ⟨-, rc, c', hok, -⟩
      · rw [herr] at herr'
        cases herr'
        exact Or.inl ⟨htrips.mpr ht, e, rfl, he⟩
      · rw [herr] at herr'
        cases herr'
        exact Or.inr (Or.inl ⟨fun hn => ht (htrips.mp hn), rfl, Or.inr (Or.inl
          ⟨c, call, hcalled, hwalks.2, hwalks.1⟩)⟩)
      · rw [herr] at hok
        cases hok
    · rcases hends with ⟨-, e', herr', -⟩ | ⟨-, herr', -⟩ | ⟨ht, rc₁, c₁, hok₁, he⟩
      · rw [hok] at herr'
        cases herr'
      · rw [hok] at herr'
        cases herr'
      · rw [hok] at hok₁
        cases hok₁
        obtain ⟨before, after, hsplit, -, hset⟩ := find_conference_split hc
        refine Or.inr (Or.inr ⟨fun hn => ht (htrips.mp hn), rc', results, _, rfl, ?_⟩)
        rw [hset]
        exact .called hsplit hcalled he

/-- The commands of the dispatcher that make no call. -/
theorem dispatch_cases {x : Result} (hroute : route w params str_cmd = none)
    (hx : s.dispatch w params str_cmd = some x) :
    str_cmd = "create_conference" ∨ str_cmd = "list_conferences" ∨ str_cmd = "info_conference" ∨
      str_cmd = "get_params" ∨ str_cmd = "fc.list_sources" ∨ str_cmd = "dc.list_streams" ∨
      str_cmd = "dc.get_all_videos" := by
  have hcalling := not_calling hroute
  simp only [calling, List.mem_cons, List.not_mem_nil, or_false, not_or] at hcalling
  by_contra hno
  simp only [not_or] at hno
  unfold Server.dispatch at hx
  simp only [*, if_false] at hx
  cases hx

/-- The commands that the dispatcher knows end, when they make no call, as follows. -/
theorem ServerSound.dispatch_ends (h : ServerSound s) {x : Result}
    (hx : s.dispatch w params str_cmd = some x) : s.Ends w params str_cmd x := by
  cases hroute : route w params str_cmd with
  | some r =>
    obtain ⟨keys, call⟩ := r
    obtain ⟨y, hy, hfollows⟩ := h.dispatch_follows hroute
    rw [hy] at hx
    cases hx
    exact h.follows_ends hroute hfollows
  | none =>
    rcases dispatch_cases hroute hx with rfl | rfl | rfl | rfl | rfl | rfl | rfl <;> cases hx
    · rcases create_conference_cases s w params with ⟨-, results, hok⟩ | ⟨hno, results, t, d, hok⟩
      · exact Or.inr (Or.inr ⟨not_trips_of_route hroute, _, _, _, hok, .same⟩)
      · exact Or.inr (Or.inr ⟨not_trips_of_route hroute, _, _, _, hok, .created rfl hno t d⟩)
    · exact Server.Reads.ends ⟨_, _, rfl⟩ hroute
    · exact info_conference_reads.ends hroute
    · exact (handler_reads (fun _ => rfl) fun c hc =>
        (h.sound c hc).owned.getParams _ _ _).ends hroute
    · exact fc_list_sources_ends
    · exact (handler_reads (fun _ => rfl) fun c _ => ⟨_, _, rfl⟩).ends hroute
    · exact (handler_reads (fun _ => rfl) fun c _ => ⟨_, _, rfl⟩).ends hroute

theorem reg_notify_cases (s : Server) (jid : String) (token : Token) (params : KVS) :
    (∃ results, s.reg_notify jid token params [] = .ok (-1, results, s)) ∨
    (chk_params params ["cid"] = none ∧ ∃ before c after reg_notify_tokens_,
      s.find_conference (param_i params "cid") = some c ∧
      s.conferences_ = before ++ c :: after ∧ s.reg_notify jid token params [] =
        .ok (0, [],
          { s with conferences_ := before ++ { c with reg_notify_tokens_ } :: after })) := by
  unfold Server.reg_notify Server.handler
  cases hchk : chk_params params ["cid"] with
  | some info => exact Or.inl ⟨_, rfl⟩
  | none =>
    dsimp only
    unfold Server.call_on
    cases hfind : s.find_conference (param_i params "cid") with
    | none => exact Or.inl ⟨_, rfl⟩
    | some c =>
      obtain ⟨before, after, hsplit, -, hset⟩ := find_conference_split hfind
      refine Or.inr ⟨rfl, before, c, after, push_token jid token c.reg_notify_tokens_, rfl, hsplit,
        ?_⟩
      simp only [ok_bind, pure_eq_ok, hset]

/-- A logged answer goes out when its line can be printed. -/
theorem respond_log_cases (token : Token) (result param : String) :
    (respond_log token result param = .ok (respond token result (some param)) ∧
      (token ≠ 0 → Printable (response_line result param))) ∨
    (respond_log token result param = .error .missingArgument ∧ token ≠ 0 ∧
      ¬ Printable (response_line result param)) := by
  unfold respond_log respond
  by_cases h0 : token = 0
  · rw [if_pos h0, if_pos h0]
    exact Or.inl ⟨rfl, fun hne => absurd h0 hne⟩
  · rw [if_neg h0, if_neg h0]
    rcases log_cases (response_line result param) with ⟨hprint, hlog⟩ | ⟨hprint, hlog⟩
    · rw [hlog]
      exact Or.inl ⟨rfl, fun _ => hprint⟩
    · rw [hlog]
      exact Or.inr ⟨rfl, h0, hprint⟩

/-- The end of a branch that logs its answer. -/
theorem respond_log_ends (token : Token) (result param : String)
    (f : List Answer → List Answer) (s' : Server) :
    (respond_log token result param >>= fun answers => pure (f answers, s')) =
        .error .missingArgument ∨
      ∃ answers, (respond_log token result param >>= fun answers => pure (f answers, s')) =
        .ok (answers, s') := by
  rcases respond_log_cases token result param with ⟨hok, -⟩ | ⟨herr, -⟩
  · rw [hok]
    exact Or.inr ⟨_, rfl⟩
  · rw [herr]
    exact Or.inl rfl

/-- Every command ends: it trips, it runs off, its answer cannot be logged, or it has served. -/
theorem ServerSound.command (h : ServerSound s) (w : World) (jid str_cmd : String) (params : KVS)
    (token : Token) :
    (s.trips w params str_cmd ∧
      ∃ e, s.command w jid str_cmd params token = .error e ∧ conference.trips e) ∨
    (¬ s.trips w params str_cmd ∧
      ∃ e, s.command w jid str_cmd params token = .error e ∧ ¬ conference.trips e ∧
        (e = .missingArgument ∨ s.runs_off w params str_cmd)) ∨
    (¬ s.trips w params str_cmd ∧ ∃ answers s',
      s.command w jid str_cmd params token = .ok (answers, s') ∧
      Served s w params str_cmd s') := by
  have hlogged : ¬ conference.trips .missingArgument := by simp [conference.trips]
  unfold Server.command
  by_cases hcmd : str_cmd = "get_version" ∨ str_cmd = "version"
  · have hno : ¬ s.trips w params str_cmd :=
      not_trips_of_route (by rcases hcmd with rfl | rfl <;> rfl)
    rw [if_pos hcmd]
    rcases respond_log_ends token "ok" (version_str w) id s with herr | ⟨answers, hok⟩
    · exact Or.inr (Or.inl ⟨hno, _, herr, hlogged, Or.inl rfl⟩)
    · exact Or.inr (Or.inr ⟨hno, answers, s, hok, .same⟩)
  rw [if_neg hcmd]
  by_cases hcmd : str_cmd = "sys_info"
  · have hno : ¬ s.trips w params str_cmd := not_trips_of_route (by rw [hcmd]; rfl)
    rw [if_pos hcmd]
    rcases respond_log_ends token "ok" w.sys_info id s with herr | ⟨answers, hok⟩
    · exact Or.inr (Or.inl ⟨hno, _, herr, hlogged, Or.inl rfl⟩)
    · exact Or.inr (Or.inr ⟨hno, answers, s, hok, .same⟩)
  rw [if_neg hcmd]
  by_cases hcmd : str_cmd = "destroy_conference"
  · have hno : ¬ s.trips w params str_cmd := not_trips_of_route (by rw [hcmd]; rfl)
    rw [if_pos hcmd]
    rcases destroy_conference_cases h params with ⟨hchk, c, e, hfind, herr, he, hbad⟩ |
      ⟨results, hok⟩ | ⟨-, before, c, after, results, tokens, -, hsplit, hok⟩
    · refine Or.inr (Or.inl ⟨hno, e, by rw [herr]; rfl, ?_, Or.inr (Or.inr (Or.inr ?_))⟩)
      · rcases he with rfl | rfl <;> simp [conference.trips]
      · refine ⟨hcmd, c, ?_, hbad⟩
        unfold Server.named
        rw [if_pos hchk, hfind]
    · rw [hok]
      rcases respond_log_ends token (result_text (-1)) (util_encode_options results)
        (fun answers => ([] : List Token).map (fun token => ⟨token, "err", none⟩) ++ answers) s with
        herr | ⟨answers, hok⟩
      · exact Or.inr (Or.inl ⟨hno, _, herr, hlogged, Or.inl rfl⟩)
      · exact Or.inr (Or.inr ⟨hno, answers, s, hok, .same⟩)
    · rw [hok]
      rcases respond_log_ends token (result_text 0) (util_encode_options results)
        (fun answers => tokens.map (fun token => ⟨token, "err", none⟩) ++ answers)
        { s with conferences_ := before ++ after } with herr | ⟨answers, hok⟩
      · exact Or.inr (Or.inl ⟨hno, _, herr, hlogged, Or.inl rfl⟩)
      · exact Or.inr (Or.inr ⟨hno, answers, _, hok, .destroyed hsplit⟩)
  rw [if_neg hcmd]
  by_cases hcmd : str_cmd = "reg_notify"
  · have hno : ¬ s.trips w params str_cmd := not_trips_of_route (by rw [hcmd]; rfl)
    rw [if_pos hcmd]
    rcases reg_notify_cases s jid token params with ⟨results, hok⟩ |
      ⟨-, before, c, after, tokens, -, hsplit, hok⟩
    · rw [hok]
      rcases respond_log_ends token "err" (util_encode_options results) id s with
        herr | ⟨answers, hok⟩
      · exact Or.inr (Or.inl ⟨hno, _, herr, hlogged, Or.inl rfl⟩)
      · exact Or.inr (Or.inr ⟨hno, answers, s, hok, .same⟩)
    · exact Or.inr (Or.inr ⟨hno, _, _, by rw [hok]; rfl, .registered tokens hsplit⟩)
  rw [if_neg hcmd]
  cases hx : s.dispatch w params str_cmd with
  | some x =>
    rcases h.dispatch_ends hx with ⟨ht, e, rfl, he⟩ | ⟨ht, rfl, hoff⟩ |
      ⟨ht, rc, results, s', rfl, hserved⟩
    · exact Or.inl ⟨ht, e, rfl, he⟩
    · exact Or.inr (Or.inl ⟨ht, .outOfBounds, rfl, by simp [conference.trips], Or.inr hoff⟩)
    · simp only [ok_bind]
      by_cases hdel : str_cmd = "fc.del_sink"
      · rw [if_pos hdel]
        exact Or.inr (Or.inr ⟨ht, _, s', rfl, hserved⟩)
      · rw [if_neg hdel]
        rcases respond_log_ends token (result_text rc) (util_encode_options results) id s' with
          herr | ⟨answers, hok⟩
        · exact Or.inr (Or.inl ⟨ht, _, herr, hlogged, Or.inl rfl⟩)
        · exact Or.inr (Or.inr ⟨ht, answers, s', hok, hserved⟩)
  | none =>
    refine Or.inr (Or.inr ⟨not_trips_of_route ?_, _, _, rfl, .same⟩)
    cases hroute : route w params str_cmd with
    | none => rfl
    | some r =>
      obtain ⟨x, hx', -⟩ := h.dispatch_follows hroute
      rw [hx] at hx'
      cases hx'

/-- A call that ends has read its options, and then done its command. -/
theorem callback_command_ok {jid : String} {str_option : Option String} {token : Token}
    {r : List Answer × Server}
    (h : s.callback_command w jid str_cmd str_option token = .ok r) : ∃ params,
      util_parse_options str_option = .ok params ∧ s.command w jid str_cmd params token = .ok r := by
  obtain ⟨params, hparse, h⟩ := bind_ok h
  obtain ⟨-, -, h⟩ := bind_ok h
  exact ⟨params, hparse, h⟩

theorem ServerSound.trips_iff (h : ServerSound s) (w : World) (jid str_cmd : String)
    (params : KVS) (token : Token) :
    s.trips w params str_cmd ↔
      ∃ e, s.command w jid str_cmd params token = .error e ∧ conference.trips e := by
  rcases h.command w jid str_cmd params token with
    ⟨ht, hyes⟩ | ⟨ht, e, herr, he⟩ | ⟨ht, answers, s', hok, -⟩
  · exact iff_of_true ht hyes
  · refine iff_of_false ht ?_
    rintro ⟨e', herr', he'⟩
    rw [herr] at herr'
    cases herr'
    exact he.1 he'
  · refine iff_of_false ht ?_
    rintro ⟨e', herr', -⟩
    rw [hok] at herr'
    cases herr'

end zonekey_mcu.server
