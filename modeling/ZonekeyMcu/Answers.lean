-- The answers of the server. A command answers its own token, except when it parks it in a
-- conference, and the end of a conference answers the tokens that were parked in it.
import ZonekeyMcu.CommandTexts
import ZonekeyMcu.ConferenceTokens
import ZonekeyMcu.OptionPairs
import ZonekeyMcu.ServerRuns

open runs returns zonekey_mcu.members zonekey_mcu.options zonekey_mcu.conference
open zonekey_mcu.logging

namespace zonekey_mcu.server

/-! ## The tokens of the server -/

/-- The tokens that wait in the conferences. -/
def Server.parked (s : Server) : List Token := s.conferences_.flatMap Conference.tokens

/-- The command is a `reg_notify` for a conference that exists. -/
def Server.parks (s : Server) (params : KVS) (str_cmd : String) : Bool :=
  str_cmd = "reg_notify" ∧ chk_params params ["cid"] = none ∧
    (s.find_conference (param_i params "cid")).isSome

/-- The tokens that wait in the conference that the command ends. -/
def Server.ended (s : Server) (params : KVS) (str_cmd : String) : List Token :=
  if str_cmd = "destroy_conference" ∧ chk_params params ["cid"] = none then
    ((s.find_conference (param_i params "cid")).map Conference.tokens).getD []
  else []

/-- The answer of a command to its own token. -/
def own (parks : Bool) (token : Token) : List Token :=
  if parks = true ∨ token = 0 then [] else [token]

theorem respond_tokens (token : Token) (result : String) (param : Option String) :
    (respond token result param).map Answer.token = own false token := by
  unfold respond own
  by_cases h : token = 0
  · rw [if_pos h, if_pos (.inr h)]
    rfl
  · rw [if_neg h, if_neg (by simp [h])]
    rfl

theorem respond_log_tokens (token : Token) (result param : String) :
    Returns (respond_log token result param) fun answers =>
      answers.map Answer.token = own false token := by
  rcases respond_log_cases token result param with ⟨hok, -⟩ | ⟨herr, -⟩
  · rw [hok]
    exact returns_ok (respond_tokens token result (some param))
  · rw [herr]
    exact returns_error

/-! ## Commands on one conference -/

variable {s : Server} {w : World} {params : KVS}

/-- A call on the conference that was found leaves the waiting tokens where they are. -/
theorem call_on_parked {found : Option Conference} {results : KVS}
    {call : Conference → conference.Result}
    (hfound : ∀ c, found = some c → s.find_conference (param_i params "cid") = some c)
    (hcall : ∀ c, Returns (call c) fun r => Waits c.reg_notify_tokens_ r.2.2) :
    Returns (s.call_on found params results call) fun r => r.2.2.parked = s.parked := by
  unfold Server.call_on
  cases found with
  | none => exact returns_ok rfl
  | some c =>
    refine (hcall c).bind fun r h => returns_pure ?_
    obtain ⟨before, after, hsplit, -, hset⟩ := find_conference_split (hfound c rfl)
    have htokens : r.2.2.tokens = c.tokens := by
      unfold Conference.tokens
      rw [h]
    unfold Server.parked
    rw [hset, hsplit]
    simp only [List.flatMap_append, List.flatMap_cons, htokens]

theorem handler_parked {find : Server → Int → Option Conference} {keys : List String}
    {results : KVS} {call : Conference → conference.Result}
    (hfind : ∀ cid c, find s cid = some c → s.find_conference cid = some c)
    (hcall : ∀ c, Returns (call c) fun r => Waits c.reg_notify_tokens_ r.2.2) :
    Returns (s.handler find keys params results call) fun r => r.2.2.parked = s.parked := by
  unfold Server.handler
  split
  · exact returns_ok rfl
  · exact call_on_parked (hfind _) hcall

theorem find_conference'_found (cid : Int) (c : Conference)
    (h : s.find_conference' cid = some c) : s.find_conference cid = some c := by
  unfold Server.find_conference' at h
  split at h
  · cases h
  · exact h

theorem create_conference_parked :
    Returns (s.create_conference w params []) fun r => r.2.2.parked = s.parked := by
  rcases create_conference_cases s w params with ⟨-, results, hok⟩ | ⟨-, results, type, desc, hok⟩
  · rw [hok]
    exact returns_ok rfl
  · rw [hok]
    apply returns_ok
    unfold Server.parked Server.created
    rw [List.flatMap_append, List.flatMap_singleton]
    exact List.append_nil _

theorem list_conferences_parked :
    Returns (s.list_conferences []) fun r => r.2.2.parked = s.parked := returns_ok rfl

theorem info_conference_parked :
    Returns (s.info_conference w params []) fun r => r.2.2.parked = s.parked := by
  unfold Server.info_conference
  split
  · exact returns_ok rfl
  · dsimp only
    split <;> exact returns_ok rfl

theorem fc_add_source_parked :
    Returns (s.fc_add_source w params []) fun r => r.2.2.parked = s.parked := by
  unfold Server.fc_add_source
  split
  · exact returns_ok rfl
  · dsimp only
    split
    · exact returns_ok rfl
    · exact call_on_parked (fun _ h => h) fun c => addSource_waits rfl w.env params []

theorem vs_exchange_parked :
    Returns (s.dc_vs_exchange_position params []) fun r => r.2.2.parked = s.parked := by
  apply handler_parked fun _ _ h => h
  intro c
  refine (vs_exchange_position_waits rfl _ _).bind fun r h => ?_
  obtain ⟨rc, c'⟩ := r
  dsimp only
  split <;> exact returns_pure h

theorem fc_list_sources_parked :
    Returns (s.fc_list_sources params []) fun r => r.2.2.parked = s.parked := by
  rw [fc_list_sources_eq]
  apply handler_parked fun _ _ h => h
  intro c
  split
  · exact returns_ok rfl
  · exact returns_error

theorem dc_list_streams_parked :
    Returns (s.dc_list_streams params []) fun r => r.2.2.parked = s.parked := by
  apply handler_parked fun _ _ h => h
  intro c
  exact returns_ok rfl

theorem dc_get_all_videos_parked :
    Returns (s.dc_get_all_videos params []) fun r => r.2.2.parked = s.parked := by
  apply handler_parked fun _ _ h => h
  intro c
  exact returns_ok rfl

theorem fc_add_sink_parked :
    Returns (s.fc_add_sink w params []) fun r => r.2.2.parked = s.parked :=
  handler_parked find_conference'_found fun _ => addSink_waits rfl w.env params []

theorem fc_del_sink_parked :
    Returns (s.fc_del_sink params []) fun r => r.2.2.parked = s.parked :=
  handler_parked find_conference'_found fun _ => delSink_waits rfl params []

theorem dc_add_stream_parked (publisher : Bool) :
    Returns (s.dc_add_stream w params [] publisher) fun r => r.2.2.parked = s.parked := by
  apply handler_parked find_conference'_found
  intro c
  cases publisher <;> exact addStreamWith_waits rfl w.env _ _ params []

/-- One branch of the dispatcher. -/
theorem branch {P : Int × KVS × Server → Prop} {p : Prop} [Decidable p] {x y : Result}
    {rest : Option Result} (hx : Returns x P) (hrest : rest = some y → Returns y P) :
    (if p then some x else rest) = some y → Returns y P := by
  intro h
  split at h
  · cases h
    exact hx
  · exact hrest h

/-- Every command of the dispatcher leaves the waiting tokens where they are. -/
theorem dispatch_parked {str_cmd : String} {x : Result} :
    s.dispatch w params str_cmd = some x → Returns x fun r => r.2.2.parked = s.parked := by
  have hfound : ∀ cid c, s.find_conference cid = some c → s.find_conference cid = some c :=
    fun _ _ h => h
  unfold Server.dispatch
  apply branch create_conference_parked
  apply branch list_conferences_parked
  apply branch info_conference_parked
  apply branch (handler_parked hfound fun _ => setParams_waits rfl params [])
  apply branch (handler_parked hfound fun _ => getParams_waits rfl w.texts params [])
  apply branch fc_add_source_parked
  apply branch (handler_parked hfound fun _ => delSource_waits rfl params [])
  apply branch fc_list_sources_parked
  apply branch fc_add_sink_parked
  apply branch fc_del_sink_parked
  apply branch (dc_add_stream_parked false)
  apply branch (handler_parked find_conference'_found fun _ => delStream_waits rfl params [])
  apply branch (dc_add_stream_parked true)
  apply branch dc_list_streams_parked
  apply branch (handler_parked find_conference'_found fun _ => addSource_waits rfl w.env params [])
  apply branch (handler_parked find_conference'_found fun _ => delSource_waits rfl params [])
  apply branch fc_add_sink_parked
  apply branch fc_del_sink_parked
  apply branch dc_get_all_videos_parked
  apply branch vs_exchange_parked
  intro h
  cases h

/-! ## Tokens come and go -/

theorem push_token_perm (jid : String) (token : Token) (tokens : List (String × List Token)) :
    ((push_token jid token tokens).flatMap (·.2)).Perm (token :: tokens.flatMap (·.2)) := by
  induction tokens with
  | nil => exact List.Perm.refl _
  | cons r rest ih =>
    obtain ⟨jid', waiting⟩ := r
    unfold push_token
    split
    · rw [List.flatMap_cons, List.flatMap_cons, List.append_assoc, List.singleton_append]
      exact List.perm_middle
    · split
      · rw [List.flatMap_cons]
        exact List.Perm.refl _
      · rw [List.flatMap_cons, List.flatMap_cons]
        exact (ih.append_left waiting).trans List.perm_middle

/-- `reg_notify` fails and changes nothing, or it parks the token. -/
theorem reg_notify_parks (s : Server) (jid : String) (token : Token) (params : KVS) :
    (s.parks params "reg_notify" = false ∧
      ∃ results, s.reg_notify jid token params [] = .ok (-1, results, s)) ∨
    (s.parks params "reg_notify" = true ∧ ∃ s', s.reg_notify jid token params [] = .ok (0, [], s') ∧
      s'.parked.Perm (token :: s.parked)) := by
  unfold Server.reg_notify Server.handler Server.parks
  cases hchk : chk_params params ["cid"] with
  | some info => exact .inl ⟨by simp, _, rfl⟩
  | none =>
    unfold Server.call_on
    cases hfind : s.find_conference (param_i params "cid") with
    | none => exact .inl ⟨by simp, _, rfl⟩
    | some c =>
      right
      obtain ⟨before, after, hsplit, -, hset⟩ := find_conference_split hfind
      refine ⟨by simp, _, rfl, ?_⟩
      have hpush : (push_token jid token c.reg_notify_tokens_).flatMap (·.2) ++
          after.flatMap Conference.tokens |>.Perm (token :: c.tokens ++
            after.flatMap Conference.tokens) :=
        (push_token_perm jid token c.reg_notify_tokens_).append_right _
      unfold Server.parked
      rw [hset, hsplit]
      simp only [List.flatMap_append, List.flatMap_cons]
      exact (hpush.append_left _).trans List.perm_middle

/-- What a command does with tokens: its answers, and the tokens that wait after it. -/
structure Replied (s : Server) (parks : Bool) (ended : List Token) (token : Token)
    (answers : List Answer) (s' : Server) : Prop where
  answers_eq : answers.map Answer.token = ended ++ own parks token
  parked_perm : (ended ++ s'.parked).Perm ((if parks = true then [token] else []) ++ s.parked)

theorem replied_same {s' : Server} {token : Token} {answers : List Answer}
    (hanswers : answers.map Answer.token = own false token) (hparked : s'.parked = s.parked) :
    Replied s false [] token answers s' := by
  refine ⟨hanswers, ?_⟩
  rw [hparked]
  exact List.Perm.refl _

/-- `destroy_conference` ends the conference that is found, and its tokens with it. -/
theorem destroy_conference_ends :
    Returns (s.destroy_conference params []) fun r =>
      r.2.2.2 = s.ended params "destroy_conference" ∧
        (r.2.2.2 ++ r.2.2.1.parked).Perm s.parked := by
  unfold Server.destroy_conference Server.ended
  cases hchk : chk_params params ["cid"] with
  | some info => exact returns_ok ⟨by simp, List.Perm.refl _⟩
  | none =>
    dsimp only
    have hfind : (s.conferences_.find? fun c => c.cid_ = param_i params "cid") =
        s.find_conference (param_i params "cid") := rfl
    rw [if_pos ⟨rfl, rfl⟩, hfind]
    cases hc : s.find_conference (param_i params "cid") with
    | none => exact returns_ok ⟨rfl, List.Perm.refl _⟩
    | some c =>
      refine (destroy_answers c).bind fun r h => returns_pure ⟨h, ?_⟩
      obtain ⟨hcid, before, after, hsplit, hbefore⟩ := List.find?_eq_some_iff_append.mp hc
      have herase : (s.conferences_.eraseP fun c => c.cid_ = param_i params "cid") =
          before ++ after := by
        have hhead : ((c :: after).eraseP fun c => c.cid_ = param_i params "cid") = after :=
          List.eraseP_cons_of_pos hcid
        rw [hsplit, List.eraseP_append_right _ (by simpa using hbefore), hhead]
      unfold Server.parked
      dsimp only
      rw [herase, hsplit, h, List.flatMap_append, List.flatMap_append, List.flatMap_cons]
      rw [← List.append_assoc, ← List.append_assoc]
      exact List.perm_append_comm.append_right _

theorem not_parks {str_cmd : String} (h : str_cmd ≠ "reg_notify") :
    s.parks params str_cmd = false := by
  unfold Server.parks
  simp [h]

theorem not_ended {str_cmd : String} (h : str_cmd ≠ "destroy_conference") :
    s.ended params str_cmd = [] := by
  unfold Server.ended
  rw [if_neg fun hcmd => h hcmd.1]

/-- What every command does with tokens, in any state of the server. -/
theorem command_answers (s : Server) (w : World) (jid str_cmd : String) (params : KVS)
    (token : Token) :
    Returns (s.command w jid str_cmd params token) fun r =>
      Replied s (s.parks params str_cmd) (s.ended params str_cmd) token r.1 r.2 := by
  unfold Server.command
  split
  · rename_i hcmd
    rw [not_parks (by rcases hcmd with rfl | rfl <;> decide),
      not_ended (by rcases hcmd with rfl | rfl <;> decide)]
    exact (respond_log_tokens _ _ _).bind fun answers h => returns_pure (replied_same h rfl)
  · split
    · rename_i hcmd
      rw [hcmd, not_parks (by decide), not_ended (by decide)]
      exact (respond_log_tokens _ _ _).bind fun answers h => returns_pure (replied_same h rfl)
    · split
      · rename_i hcmd
        rw [hcmd, not_parks (by decide)]
        refine destroy_conference_ends.bind fun r h =>
          (respond_log_tokens _ _ _).bind fun answers hanswers => returns_pure ⟨?_, ?_⟩
        · rw [List.map_append, hanswers, List.map_map, ← h.1]
          exact congrArg (· ++ _) (List.map_id _)
        · rw [← h.1]
          exact h.2
      · rename_i hdestroy
        rw [not_ended hdestroy]
        split
        · rename_i hcmd
          rw [hcmd]
          rcases reg_notify_parks s jid token params with
            ⟨hparks, results, hok⟩ | ⟨hparks, s', hok, hperm⟩
          · rw [hok, hparks]
            exact (respond_log_tokens _ _ _).bind fun answers h =>
              returns_pure (replied_same h rfl)
          · rw [hok, hparks]
            exact returns_ok ⟨rfl, hperm⟩
        · rename_i hcmd
          rw [not_parks hcmd]
          split
          · rename_i hx
            refine (dispatch_parked hx).bind fun r h => ?_
            dsimp only
            split
            · exact returns_pure (replied_same (respond_tokens _ _ _) h)
            · exact (respond_log_tokens _ _ _).bind fun answers hanswers =>
                returns_pure (replied_same hanswers h)
          · exact returns_ok (replied_same (respond_tokens _ _ _) rfl)

/-! ## The loop -/

theorem run_once_all_parked (env : Nat → Env) (i : Nat) (cs : List Conference) :
    Returns (run_once_all env i cs) fun cs' =>
      cs'.flatMap Conference.tokens = cs.flatMap Conference.tokens := by
  induction cs generalizing i with
  | nil => exact returns_ok rfl
  | cons c cs ih =>
    unfold run_once_all
    refine returns_bind fun _ =>
      (run_once_waits rfl (env i)).bind fun c' h => (ih (i + 1)).bind fun cs' hrest => ?_
    apply returns_pure
    have htokens : c'.tokens = c.tokens := by
      unfold Conference.tokens
      rw [h]
    rw [List.flatMap_cons, List.flatMap_cons, htokens, hrest]

/-- The tokens that wait in the idle conferences. -/
def idle_tokens (cs : List Conference) : List Token :=
  (cs.filter Conference.idle).flatMap Conference.tokens

/-- The sweep answers the tokens of the idle conferences, and the others wait on. -/
theorem func_idle_all_answers (cs : List Conference) :
    Returns (func_idle_all cs) fun r => r.2 = idle_tokens cs ∧
      (r.2 ++ r.1.flatMap Conference.tokens).Perm (cs.flatMap Conference.tokens) := by
  induction cs with
  | nil => exact returns_ok ⟨rfl, List.Perm.refl _⟩
  | cons c cs ih =>
    unfold func_idle_all idle_tokens
    split
    · rename_i hidle
      refine (destroy_answers c).bind fun r h => ih.bind fun r' hrest => returns_pure ⟨?_, ?_⟩
      · rw [List.filter_cons_of_pos hidle, List.flatMap_cons, h, hrest.1]
        rfl
      · rw [h, List.flatMap_cons, List.append_assoc]
        exact hrest.2.append_left _
    · rename_i hidle
      refine ih.bind fun r' hrest => returns_pure ⟨?_, ?_⟩
      · rw [List.filter_cons_of_neg hidle, hrest.1]
        rfl
      · rw [List.flatMap_cons, List.flatMap_cons, ← List.append_assoc]
        refine (List.perm_append_comm.append_right _).trans ?_
        rw [List.append_assoc]
        exact hrest.2.append_left _

/-! ## Runs -/

/-- A command that has returned, and its answers. -/
structure Exchange where
  token : Token
  parks : Bool
  ended : List Token
  answers : List Answer

/-- The system, with the commands that have returned and the tokens that the sweep has
answered. -/
structure Log where
  sys : System
  exchanges : List Exchange
  swept : List Token

def Log.start (sys : System) : Log := ⟨sys, [], []⟩

/-- A step of the system that keeps the answers. -/
def Log.step (l : Log) : Action → Except Fault Log
  | .command w remote_jid str_cmd str_option token => do
    let params ← util_parse_options str_option
    let (answers, mcu) ← l.sys.mcu.callback_command w remote_jid str_cmd str_option token
    return { l with
      sys := { l.sys with mcu }
      exchanges := l.exchanges ++
        [⟨token, l.sys.mcu.parks params str_cmd, l.sys.mcu.ended params str_cmd, answers⟩] }
  | .loop env =>
    match l.sys.next with
    | .run_once => do
      let sys ← server.step l.sys (.loop env)
      return { l with sys }
    | .sweep => do
      let (conferences_, tokens) ← func_idle_all l.sys.mcu.conferences_
      return { l with
        sys := { mcu := { l.sys.mcu with conferences_ }, next := .run_once }
        swept := l.swept ++ tokens }

/-- The log follows the system. -/
theorem log_step_sys (l : Log) (a : Action) : (l.step a).map Log.sys = server.step l.sys a := by
  cases a with
  | command w jid str_cmd str_option token =>
    unfold Log.step server.step Server.callback_command
    dsimp only
    cases hparse : util_parse_options str_option with
    | error e => rfl
    | ok params =>
      simp only [ok_bind]
      cases log (command_line str_cmd str_option jid) with
      | error e => rfl
      | ok _ =>
        simp only [ok_bind]
        cases l.sys.mcu.command w jid str_cmd params token with
        | error e => rfl
        | ok r => rfl
  | loop env =>
    unfold Log.step
    cases hnext : l.sys.next with
    | run_once =>
      dsimp only
      cases server.step l.sys (.loop env) with
      | error e => rfl
      | ok sys => rfl
    | sweep =>
      unfold server.step
      dsimp only
      rw [hnext]
      dsimp only
      cases func_idle_all l.sys.mcu.conferences_ with
      | error e => rfl
      | ok r => rfl

/-- Each token is answered once, where `before` waited at the start: a command answers its
own token unless it has parked it, what was parked is answered by the end of its
conference or waits still, and no answer has the null token. -/
structure AnsweredOnce (before : List Token) (l : Log) : Prop where
  command : ∀ e ∈ l.exchanges, e.answers.map Answer.token = e.ended ++ own e.parks e.token
  parked : (l.exchanges.flatMap Exchange.ended ++ l.swept ++ l.sys.mcu.parked).Perm
    (before ++ (l.exchanges.filter Exchange.parks).map Exchange.token)
  null : (∀ e ∈ l.exchanges, ∀ answer ∈ e.answers, answer.token ≠ 0) ∧ 0 ∉ l.swept

/-- No null token waits in a conference that the action ends. -/
def NoNullEnds (l : Log) : Action → Prop
  | .command _ _ str_cmd str_option _ => ∀ params, util_parse_options str_option = .ok params →
      0 ∉ l.sys.mcu.ended params str_cmd
  | .loop _ => l.sys.next = .sweep → 0 ∉ idle_tokens l.sys.mcu.conferences_

/-- No null token is parked by the action. -/
def NoNullParks (l : Log) : Action → Prop
  | .command _ _ str_cmd str_option token => token = 0 → ∀ params,
      util_parse_options str_option = .ok params → l.sys.mcu.parks params str_cmd = false
  | .loop _ => True

/-- What a step adds to the log. -/
inductive Logged (l l' : Log) (a : Action) : Prop
  | command (e : Exchange) (hexchanges : l'.exchanges = l.exchanges ++ [e])
      (hswept : l'.swept = l.swept)
      (hanswers : e.answers.map Answer.token = e.ended ++ own e.parks e.token)
      (hparked : (e.ended ++ l'.sys.mcu.parked).Perm
        ((if e.parks = true then [e.token] else []) ++ l.sys.mcu.parked))
      (hends : NoNullEnds l a ↔ 0 ∉ e.ended)
      (hparks : NoNullParks l a ↔ (e.token = 0 → e.parks = false))
  | loop (tokens : List Token) (hexchanges : l'.exchanges = l.exchanges)
      (hswept : l'.swept = l.swept ++ tokens)
      (hparked : (tokens ++ l'.sys.mcu.parked).Perm l.sys.mcu.parked)
      (hends : NoNullEnds l a ↔ 0 ∉ tokens)

theorem step_logged {l l' : Log} {a : Action} (h : l.step a = .ok l') : Logged l l' a := by
  cases a with
  | command w jid str_cmd str_option token =>
    obtain ⟨params, hparse, h⟩ := bind_ok h
    obtain ⟨r, hcall, h⟩ := bind_ok h
    cases h
    obtain ⟨params', hparse', hcommand⟩ := callback_command_ok hcall
    rw [hparse] at hparse'
    cases hparse'
    have hreplied := command_answers _ _ _ _ _ _ r hcommand
    refine .command _ rfl rfl hreplied.answers_eq hreplied.parked_perm ?_ ?_
    · refine ⟨fun h => h params hparse, fun h params' hparse' => ?_⟩
      rw [hparse] at hparse'
      cases hparse'
      exact h
    · refine ⟨fun h htoken => h htoken params hparse, fun h htoken params' hparse' => ?_⟩
      rw [hparse] at hparse'
      cases hparse'
      exact h htoken
  | loop env =>
    unfold Log.step at h
    cases hnext : l.sys.next with
    | run_once =>
      rw [hnext] at h
      obtain ⟨sys, hsys, h⟩ := bind_ok h
      cases h
      unfold server.step at hsys
      dsimp only at hsys
      rw [hnext] at hsys
      obtain ⟨cs, hcs, hsys⟩ := bind_ok hsys
      cases hsys
      have hparked := run_once_all_parked _ _ _ cs hcs
      refine .loop [] rfl (List.append_nil _).symm ?_ ?_
      · unfold Server.parked
        dsimp only
        rw [hparked]
        exact List.Perm.refl _
      · refine ⟨fun _ => List.not_mem_nil, fun _ hsweep => ?_⟩
        rw [hnext] at hsweep
        cases hsweep
    | sweep =>
      rw [hnext] at h
      obtain ⟨r, hr, h⟩ := bind_ok h
      cases h
      obtain ⟨htokens, hparked⟩ := func_idle_all_answers _ r hr
      refine .loop r.2 rfl rfl hparked ?_
      rw [htokens]
      exact ⟨fun h => h hnext, fun h _ => h⟩

section

variable {before : List Token} {l l' : Log} {a : Action}

/-- The tokens are kept together in each step. -/
theorem logged_keeps_parked (h : Logged l l' a)
    (hp : (l.exchanges.flatMap Exchange.ended ++ l.swept ++ l.sys.mcu.parked).Perm
      (before ++ (l.exchanges.filter Exchange.parks).map Exchange.token)) :
    (l'.exchanges.flatMap Exchange.ended ++ l'.swept ++ l'.sys.mcu.parked).Perm
      (before ++ (l'.exchanges.filter Exchange.parks).map Exchange.token) := by
  rw [List.perm_iff_count] at hp ⊢
  intro token
  have hold := hp token
  cases h with
  | command e hexchanges hswept _ hparked =>
    have hnew := hparked.count_eq token
    have hone : ([e].filter Exchange.parks).map Exchange.token =
        if e.parks = true then [e.token] else [] := by
      cases hparks : e.parks
      · rw [List.filter_cons_of_neg (by simp [hparks])]
        rfl
      · rw [List.filter_cons_of_pos hparks]
        rfl
    rw [hexchanges, hswept, List.filter_append, List.map_append, hone, List.flatMap_append,
      List.flatMap_singleton]
    simp only [List.count_append] at hold hnew ⊢
    omega
  | loop tokens hexchanges hswept hparked =>
    have hnew := hparked.count_eq token
    rw [hexchanges, hswept]
    simp only [List.count_append] at hold hnew ⊢
    omega

/-- The own answer of a command never has the null token. -/
theorem null_answered {e : Exchange}
    (h : e.answers.map Answer.token = e.ended ++ own e.parks e.token) :
    (∀ answer ∈ e.answers, answer.token ≠ 0) ↔ 0 ∉ e.ended := by
  have hown : 0 ∉ own e.parks e.token := by
    unfold own
    split
    · exact List.not_mem_nil
    · rename_i hno
      rw [List.mem_singleton]
      exact fun h0 => hno (.inr h0.symm)
  have hall : (∀ answer ∈ e.answers, answer.token ≠ 0) ↔ 0 ∉ e.answers.map Answer.token := by
    rw [List.mem_map]
    exact ⟨fun h ⟨answer, hm, h0⟩ => h answer hm h0, fun h answer hm h0 => h ⟨answer, hm, h0⟩⟩
  rw [hall, h, List.mem_append]
  exact ⟨fun h hm => h (.inl hm), fun h hm => hm.elim h hown⟩

theorem logged_answered (h : Logged l l' a) (hl : AnsweredOnce before l) :
    AnsweredOnce before l' ↔ NoNullEnds l a := by
  have hparked := logged_keeps_parked h hl.parked
  cases h with
  | command e hexchanges hswept hanswers _ hends =>
    have hnull := null_answered hanswers
    rw [hends, ← hnull]
    constructor
    · intro h'
      exact h'.null.1 e (by rw [hexchanges]; exact List.mem_append_right _ List.mem_cons_self)
    · intro he
      refine ⟨?_, hparked, ?_, hswept ▸ hl.null.2⟩
      · rw [hexchanges]
        exact forall_append_one hl.command hanswers
      · rw [hexchanges]
        exact forall_append_one hl.null.1 he
  | loop tokens hexchanges hswept _ hends =>
    rw [hends]
    constructor
    · intro h' hm
      exact h'.null.2 (by rw [hswept]; exact List.mem_append_right _ hm)
    · intro ht
      refine ⟨hexchanges ▸ hl.command, hparked, hexchanges ▸ hl.null.1, ?_⟩
      rw [hswept, List.mem_append]
      exact fun hm => hm.elim hl.null.2 ht

/-- While no null token is parked, none waits, and none comes to its end. -/
theorem logged_null (h : Logged l l' a) (hnull : 0 ∉ l.sys.mcu.parked) (hno : NoNullParks l a) :
    NoNullEnds l a ∧ 0 ∉ l'.sys.mcu.parked := by
  cases h with
  | command e _ _ _ hparked hends hparks =>
    have hafter : 0 ∉ e.ended ++ l'.sys.mcu.parked := by
      rw [hparked.mem_iff, List.mem_append]
      rintro (hm | hm)
      · split at hm
        · rename_i hp
          rw [hparks.mp hno (List.mem_singleton.mp hm).symm] at hp
          cases hp
        · exact List.not_mem_nil hm
      · exact hnull hm
    rw [hends]
    exact ⟨fun h => hafter (List.mem_append_left _ h), fun h => hafter (List.mem_append_right _ h)⟩
  | loop tokens _ _ hparked hends =>
    have hafter : 0 ∉ tokens ++ l'.sys.mcu.parked := by rwa [hparked.mem_iff]
    rw [hends]
    exact ⟨fun h => hafter (List.mem_append_left _ h), fun h => hafter (List.mem_append_right _ h)⟩

end

/-! ## The law -/

/-- The command comes back to the client that gave it: its options can be read, it and what its
answer repeats are logged as they are, and it neither trips nor runs off. -/
def Server.Manages (s : Server) (w : World) (jid str_cmd : String) (str_option : Option String)
    (token : Token) : Prop :=
  w.Bare ∧ well_formed str_option ∧ Printable (command_line str_cmd str_option jid) ∧
    ∀ params, util_parse_options str_option = .ok params →
      ¬ s.trips w params str_cmd ∧ ¬ s.runs_off w params str_cmd ∧
        s.tells_bare w params str_cmd token

theorem ServerSound.manages (h : ServerSound s) {w : World} {jid str_cmd : String}
    {str_option : Option String} {token : Token}
    (hm : s.Manages w jid str_cmd str_option token) :
    ∃ r, s.callback_command w jid str_cmd str_option token = .ok r := by
  obtain ⟨hw, hformed, hprint, hall⟩ := hm
  rcases parse_options_cases str_option with ⟨-, params, hparse⟩ | ⟨hno, -⟩
  · obtain ⟨ht, hoff, htell⟩ := hall params hparse
    unfold Server.callback_command
    rw [hparse, ok_bind, log_printable hprint, ok_bind]
    have hlogged := @ServerSound.command_printable s w params str_cmd jid token h hw htell
    rcases h.command w jid str_cmd params token with
      ⟨hyes, -⟩ | ⟨-, e, herr, -, rfl | hyes⟩ | ⟨-, answers, s', hok, -⟩
    · exact absurd hyes ht
    · exact absurd herr hlogged
    · exact absurd hyes hoff
    · exact ⟨_, hok⟩
  · exact absurd hformed hno

/-- A command comes back that makes no call, lists no sources and repeats no text, if the
conference that it ends does not end badly. -/
theorem manages_of_no_call {jid str_cmd : String} {str_option : Option String} {token : Token}
    (hparse : util_parse_options str_option = .ok params)
    (hprint : Printable (command_line str_cmd str_option jid))
    (hroute : route World.still params str_cmd = none) (hlist : str_cmd ≠ "fc.list_sources")
    (hends : str_cmd = "destroy_conference" → ∀ c, s.named params = some c →
      ¬ Conference.ends_badly c)
    (htold : s.told World.still params str_cmd = none) :
    s.Manages World.still jid str_cmd str_option token := by
  refine ⟨still_bare, ?_, hprint, fun params' hparams' => ?_⟩
  · rcases parse_options_cases str_option with ⟨hformed, -⟩ | ⟨-, herr⟩
    · exact hformed
    · rw [hparse] at herr
      cases herr
  rw [hparse] at hparams'
  cases hparams'
  refine ⟨not_trips_of_route hroute, ?_, fun _ line hline => ?_⟩
  · rintro (⟨hcmd, -⟩ | ⟨c, call, hcalled, -⟩ | ⟨hcmd, c, hc, hbad⟩)
    · exact hlist hcmd
    · unfold Server.called at hcalled
      rw [hroute] at hcalled
      cases hcalled
    · exact hends hcmd c hc hbad
  · rw [htold] at hline
    cases hline

def Action.is_command : Action → Prop
  | .command _ _ _ _ _ => True
  | .loop _ => False

/-- The actions whose command comes back. -/
def ComesBack (l : Log) : Action → Prop
  | .command w jid str_cmd str_option token => l.sys.mcu.Manages w jid str_cmd str_option token
  | .loop _ => True

/-- In the run, each command returns, and in each state that is reached each token is answered
once. -/
def AllAnswered (sys : System) (actions : List Action) : Prop :=
  Meets Log.step (fun l a => a.is_command → ∃ l', l.step a = .ok l') (Log.start sys) actions ∧
    ∀ done l, done <+: actions → run Log.step (Log.start sys) done = .ok l →
      AnsweredOnce sys.mcu.parked l

theorem log_step_sound {l l' : Log} {a : Action} (h : ServerSound l.sys.mcu)
    (hs : l.step a = .ok l') : ServerSound l'.sys.mcu := by
  have hsys := log_step_sys l a
  rw [hs] at hsys
  exact h.step hsys.symm

theorem comes_back_returns {l : Log} {a : Action} (h : ServerSound l.sys.mcu)
    (hc : ComesBack l a) (ha : a.is_command) : ∃ l', l.step a = .ok l' := by
  cases a with
  | command w jid str_cmd str_option token =>
    obtain ⟨r, hr⟩ := h.manages hc
    obtain ⟨params, hparse, -⟩ := callback_command_ok hr
    unfold Log.step
    dsimp only
    rw [hparse, ok_bind, hr]
    exact ⟨_, rfl⟩
  | loop env => exact ha.elim

/-- What each action keeps under its condition, when its command comes back. -/
theorem all_answered {C : Log → Action → Prop} {I : Log → Prop} {sys : System}
    {actions : List Action} (hsound : ServerSound sys.mcu)
    (hkeep : ∀ l a l', AnsweredOnce sys.mcu.parked l → I l → C l a → l.step a = .ok l' →
      AnsweredOnce sys.mcu.parked l' ∧ I l')
    (hI : I (Log.start sys))
    (hmeets : Meets Log.step (fun l a => ComesBack l a ∧ C l a) (Log.start sys) actions) :
    AllAnswered sys actions := by
  have hstart : AnsweredOnce sys.mcu.parked (Log.start sys) := by
    refine ⟨fun _ he => absurd he List.not_mem_nil, ?_, fun _ he => absurd he List.not_mem_nil,
      List.not_mem_nil⟩
    unfold Log.start
    simp
  have hstep : ∀ l a l',
      (ServerSound l.sys.mcu ∧ AnsweredOnce sys.mcu.parked l ∧ I l) → ComesBack l a ∧ C l a →
      l.step a = .ok l' → ServerSound l'.sys.mcu ∧ AnsweredOnce sys.mcu.parked l' ∧ I l' :=
    fun l a l' h hc hs => ⟨log_step_sound h.1 hs, hkeep l a l' h.2.1 h.2.2 hc.2 hs⟩
  refine ⟨meets_imp (fun l a h hc ha => comes_back_returns h.1 hc.1 ha) hstep actions
    ⟨hsound, hstart, hI⟩ hmeets, fun done l hdone hrun => ?_⟩
  exact (run_keeps_of_meets hstep ⟨hsound, hstart, hI⟩ (meets_upto hmeets hdone) hrun).2.1

/-- From any state that the server reaches, each command is answered and each token is answered
once, while each command comes back and no conference ends in which a null token waits. So it is
when no null token waits at the start and none is parked. -/
theorem every_token_is_answered_once {cap_max : Nat} {history : List Action} {sys : System}
    (hsys : run server.step (System.new cap_max) history = .ok sys) (actions : List Action) :
    (Meets Log.step (fun l a => ComesBack l a ∧ NoNullEnds l a) (Log.start sys) actions →
        AllAnswered sys actions) ∧
      (0 ∉ sys.mcu.parked →
        Meets Log.step (fun l a => ComesBack l a ∧ NoNullParks l a) (Log.start sys) actions →
        AllAnswered sys actions) := by
  have hsound := server_sound_run hsys
  refine ⟨fun hmeets => ?_, fun hnull hmeets => ?_⟩
  · apply all_answered (I := fun _ => True) hsound _ trivial hmeets
    exact fun l a l' hl _ hno hs => ⟨(logged_answered (step_logged hs) hl).mpr hno, trivial⟩
  · apply all_answered (I := fun l => 0 ∉ l.sys.mcu.parked) hsound _ hnull hmeets
    intro l a l' hl h0 hno hs
    obtain ⟨hends, h0'⟩ := logged_null (step_logged hs) h0 hno
    exact ⟨(logged_answered (step_logged hs) hl).mpr hends, h0'⟩

/-- A conference is made, a token is parked in it, and it is destroyed. -/
def park_and_destroy (token : Token) : List Action :=
  [.ask "create_conference" "mode=director",
    .command World.still "client" "reg_notify" (some "cid=1") token,
    .ask "destroy_conference" "cid=1"]

theorem every_token_is_answered_once_example :
    AllAnswered (System.new 1) (park_and_destroy 7) := by
  refine (@every_token_is_answered_once 1 [] _ rfl (park_and_destroy 7)).2 List.not_mem_nil ?_
  refine meets_cons ⟨manages_of_no_call rfl (by decide) rfl (by decide)
    (fun h => absurd h (by decide)) rfl, fun h => absurd h (by decide)⟩ rfl ?_
  refine meets_cons ⟨manages_of_no_call rfl (by decide) rfl (by decide)
    (fun h => absurd h (by decide)) rfl, fun h => absurd h (by decide)⟩ rfl ?_
  refine meets_cons ⟨manages_of_no_call rfl (by decide) rfl (by decide) (fun _ c hc => ?_) rfl,
    fun h => absurd h (by decide)⟩ rfl (meets_nil _)
  cases hc
  rintro (⟨htype, -⟩ | hend)
  · cases htype
  · exact hend rfl

/-- A conference is made, and a source in it. -/
def source_made : List Action :=
  [.ask "create_conference" "mode=director", .ask "dc.add_source" "cid=1&payload=100"]

/-- A `reg_notify` without a token parks a null token, and the destructor answers it. And the
list of the sources, when there is one, is never answered. -/
theorem a_null_token_is_answered :
    (∃ l, run Log.step (Log.start (System.new 1)) (park_and_destroy 0) = .ok l ∧
      (∃ e ∈ l.exchanges, ⟨0, "err", none⟩ ∈ e.answers) ∧
      ¬ AllAnswered (System.new 1) (park_and_destroy 0)) ∧
    ∃ l, run Log.step (Log.start (System.new 1)) source_made = .ok l ∧
      l.step (.ask "fc.list_sources" "cid=1") = .error .outOfBounds := by
  obtain ⟨l, hrun, e, he, hanswer⟩ : ∃ l,
      run Log.step (Log.start (System.new 1)) (park_and_destroy 0) = .ok l ∧
      ∃ e ∈ l.exchanges, (⟨0, "err", none⟩ : Answer) ∈ e.answers :=
    ⟨_, rfl, _, List.mem_cons_of_mem _ (List.mem_cons_of_mem _ List.mem_cons_self),
      List.mem_cons_self⟩
  refine ⟨⟨l, hrun, ⟨e, he, hanswer⟩, fun hall => ?_⟩, _, rfl, rfl⟩
  exact (hall.2 _ l (List.prefix_refl _) hrun).null.1 e he _ hanswer rfl

end zonekey_mcu.server
