-- The server: the list of conferences, one handler for each command of a remote
-- client, and the two sections of the server loop. A section and a handler both
-- hold the lock of the list, so each is one step.
import ZonekeyMcu.ConferenceLoop
import ZonekeyMcu.Logging

open zonekey_mcu.members zonekey_mcu.options zonekey_mcu.conference zonekey_mcu.logging

namespace zonekey_mcu.server

/-- `cap_max` comes from the configuration. -/
structure Server where
  conferences_ : List Conference
  next_id_ : Int
  cap_max : Nat

def Server.new (cap_max : Nat) : Server where
  conferences_ := []
  next_id_ := 1
  cap_max := cap_max

/-- What the world gives to a command: the sockets of a new object, the memory of
a new mixer, and the texts that the model takes as given. -/
structure World where
  env : Env
  want_alpha : Nat → Int
  texts : Texts
  timestamp : String
  sys_info : String
  info_of_conference : Conference → String

/-- A world where nothing happens. -/
def World.still : World where
  env := Env.still
  want_alpha _ := 0
  texts := { stats := [], fps := fun _ => "25.000000" }
  timestamp := ""
  sys_info := ""
  info_of_conference _ := ""

/-- A call of `zkrbt_mse_respond`. -/
structure Answer where
  token : Token
  result : String
  param : Option String
  deriving DecidableEq

/-- What a handler gives: the return code, the answer, and the server. -/
abbrev Result := Except Fault (Int × KVS × Server)

/-! ## Conferences -/

/-- The next value of `next_id_`. -/
def next_cid (id : Int) : Int := if id + 1 ≥ 0x7f000000 then 1 else id + 1

/-- What fits into `char info[128]`. -/
def info_128 (text : String) : String := String.ofList (text.toList.take 127)

/-- The class that the text `mode` names. -/
def mode_type (mode : String) : Option ConferenceType :=
  if mode = "free" then some .CT_FREE
  else if mode = "director" then some .CT_DIRECTOR
  else none

def unknown_mode (mode : String) : String := info_128 ("unknown mode='" ++ mode ++ "'")

def Server.create_conference (s : Server) (w : World) (params results : KVS) : Result :=
  match chk_params params ["mode"] with
  | some info => .ok (-1, KVS.set "reason" info results, s)
  | none =>
    if s.conferences_.length ≥ s.cap_max then
      .ok (-1, KVS.set "reason" "license: too many conferences..." results, s)
    else match mode_type (param params "mode") with
      | none => .ok (-1, KVS.set "reason" (unknown_mode (param params "mode")) results, s)
      | some type =>
        let cf := (Conference.new type w.env w.want_alpha s.next_id_).set_desc
          (param_or_empty params "desc")
        .ok (0, KVS.set "cid" (text_i s.next_id_) results,
          { s with conferences_ := s.conferences_ ++ [cf], next_id_ := next_cid s.next_id_ })

/-- Also the tokens that the destructor answers. -/
def Server.destroy_conference (s : Server) (params results : KVS) :
    Except Fault (Int × KVS × Server × List Token) :=
  match chk_params params ["cid"] with
  | some info => .ok (-1, KVS.set "reason" info results, s, [])
  | none =>
    let cid := param_i params "cid"
    match s.conferences_.find? fun c => c.cid_ = cid with
    | none => .ok (-1, KVS.set "reason" ("cid=" ++ text_i cid ++ ", not found!") results, s, [])
    | some c => do
      let (_, tokens) ← c.destroy
      return (0, KVS.set "info" ("cid=" ++ text_i cid ++ ", released!") results,
        { s with conferences_ := s.conferences_.eraseP fun c => c.cid_ = cid }, tokens)

def Server.list_conferences (s : Server) (results : KVS) : Result :=
  .ok (0, KVS.set "cids" (String.join (s.conferences_.map fun c => text_i c.cid_ ++ ",")) results,
    s)

def Server.info_conference (s : Server) (w : World) (params results : KVS) : Result :=
  match chk_params params ["cid"] with
  | some info => .ok (-1, KVS.set "reason" info results, s)
  | none =>
    let cid := param_i params "cid"
    match s.conferences_.find? fun c => c.cid_ = cid with
    | none => .ok (-1, KVS.set "reason" ("cid=" ++ text_i cid ++ ", NOT found") results, s)
    | some c => .ok (0, KVS.set "info" (w.info_of_conference c) results, s)

/-! ## Commands on one conference -/

/-- The first conference with the id. -/
def Server.find_conference (s : Server) (cid : Int) : Option Conference :=
  s.conferences_.find? fun c => c.cid_ = cid

/-- The search of the handlers that never take -1. -/
def Server.find_conference' (s : Server) (cid : Int) : Option Conference :=
  if cid = -1 then none else s.find_conference cid

/-- The conference that `find_conference` finds, after a call on it. -/
def Server.set_conference (s : Server) (cid : Int) (c : Conference) : Server :=
  { s with
    conferences_ := s.conferences_.set (s.conferences_.findIdx fun c => c.cid_ = cid) c }

/-- The call on the conference that was found. -/
def Server.call_on (s : Server) (found : Option Conference) (params results : KVS)
    (call : Conference → conference.Result) : Result :=
  let cid := param_i params "cid"
  match found with
  | none => .ok (-1, KVS.set "reason" ("cid=" ++ text_i cid ++ ", NOT found!") results, s)
  | some c => do
    let (rc, results, c) ← call c
    return (rc, results, s.set_conference cid c)

/-- A handler: it checks its keys, finds the conference, and makes its call. -/
def Server.handler (s : Server) (find : Server → Int → Option Conference) (keys : List String)
    (params results : KVS) (call : Conference → conference.Result) : Result :=
  match chk_params params keys with
  | some info => .ok (-1, KVS.set "reason" info results, s)
  | none => s.call_on (find s (param_i params "cid")) params results call

/-- This handler also checks the payload, before it looks for the conference. -/
def Server.fc_add_source (s : Server) (w : World) (params results : KVS) : Result :=
  match chk_params params ["cid", "payload"] with
  | some info => .ok (-1, KVS.set "reason" info results, s)
  | none =>
    let payload := param_i params "payload"
    if payload ≠ 100 ∧ payload ≠ 110 then
      .ok (-1, KVS.set "reason" ("payload type '" ++ text_i payload ++ "' not supported") results,
        s)
    else s.call_on (s.find_conference (param_i params "cid")) params results fun c =>
      c.addSource w.env params results

def Server.fc_del_source (s : Server) (params results : KVS) : Result :=
  s.handler Server.find_conference ["cid", "sid"] params results fun c =>
    c.delSource params results

/-- `ss << it2->sid << " " << it2->desc << "\n"`. -/
def source_line (d : SourceDescription) : String := text_i d.sid ++ " " ++ d.desc ++ "\n"

/-- The loop over the descriptions moves `it`, the iterator of the conferences. `it` is at the
first of the conferences that are given, or at the end of them, and `it2` so at the
descriptions. The `++it` may not leave the end. -/
def sources_loop : List Conference → List SourceDescription → String → Except Fault String
  | _, [], ss => .ok ss
  | [], _ :: _, _ => .error .outOfBounds
  | _ :: it, d :: it2, ss => sources_loop it (d :: it2) (ss ++ source_line d)

/-- The search leaves `it` at the conference. -/
def Server.fc_list_sources (s : Server) (params results : KVS) : Result :=
  match chk_params params ["cid"] with
  | some info => .ok (-1, KVS.set "reason" info results, s)
  | none =>
    let cid := param_i params "cid"
    match s.conferences_.dropWhile fun c => c.cid_ ≠ cid with
    | [] => .ok (-1, KVS.set "reason" ("cid=" ++ text_i cid ++ ", NOT found!") results, s)
    | conf :: it => do
      let ss ← sources_loop (conf :: it) (conf.get_source_descriptions (-1)) ""
      return (0, KVS.set "sources" ss results, s)

def Server.fc_add_sink (s : Server) (w : World) (params results : KVS) : Result :=
  s.handler Server.find_conference' ["cid", "sid"] params results fun c =>
    c.addSink w.env params results

def Server.fc_del_sink (s : Server) (params results : KVS) : Result :=
  s.handler Server.find_conference' ["cid", "sinkid"] params results fun c =>
    c.delSink params results

def Server.dc_add_stream (s : Server) (w : World) (params results : KVS) (publisher : Bool) :
    Result :=
  s.handler Server.find_conference' ["cid", "payload"] params results fun c =>
    if publisher then c.addStreamWithPublisher w.env params results
    else c.addStream w.env params results

def Server.dc_del_stream (s : Server) (params results : KVS) : Result :=
  s.handler Server.find_conference' ["cid", "streamid"] params results fun c =>
    c.delStream params results

def Server.dc_add_source (s : Server) (w : World) (params results : KVS) : Result :=
  s.handler Server.find_conference' ["cid", "payload"] params results fun c =>
    c.addSource w.env params results

def Server.dc_del_source (s : Server) (params results : KVS) : Result :=
  s.handler Server.find_conference' ["cid", "sid"] params results fun c =>
    c.delSource params results

def streams_answer (c : Conference) (results : KVS) : KVS :=
  KVS.set "streams" (String.join (c.streams_.map fun stream =>
    text_i stream.stream_id ++ " " ++ stream.desc_ ++ "\n")) results

def Server.dc_list_streams (s : Server) (params results : KVS) : Result :=
  s.handler Server.find_conference ["cid"] params results fun c =>
    .ok (0, streams_answer c results, c)

def Server.dc_add_sink (s : Server) (w : World) (params results : KVS) : Result :=
  s.fc_add_sink w params results

def Server.dc_del_sink (s : Server) (params results : KVS) : Result :=
  s.fc_del_sink params results

def Server.dc_vs_exchange_position (s : Server) (params results : KVS) : Result :=
  s.handler Server.find_conference ["cid", "id1", "id2"] params results fun c => do
    let (rc, c) ← c.vs_exchange_position (param_i params "id1") (param_i params "id2")
    if rc = 0 then return (0, results, c)
    else return (-1, KVS.set "reason" "id error" results, c)

def videos_answer (c : Conference) (results : KVS) : KVS :=
  let streams := c.streams_.filter fun stream => stream.payload_type = 100
  let sources := c.sources_.filter fun source => source.payload_type = 100
  KVS.set "sources" (String.join (sources.map fun source =>
      text_i source.source_id ++ "," ++ source.desc ++ ";"))
    (KVS.set "streams" (String.join (streams.map fun stream =>
      text_i stream.stream_id ++ "," ++ stream.desc_ ++ ";")) results)

def Server.dc_get_all_videos (s : Server) (params results : KVS) : Result :=
  s.handler Server.find_conference ["cid"] params results fun c =>
    .ok (0, videos_answer c results, c)

/-- `reg_notify_tokens_[from_jid].push_back(token)`. -/
def push_token (from_jid : String) (token : Token) :
    List (String × List Token) → List (String × List Token)
  | [] => [(from_jid, [token])]
  | (jid, tokens) :: rest =>
    if from_jid = jid then (jid, tokens ++ [token]) :: rest
    else if from_jid < jid then (from_jid, [token]) :: (jid, tokens) :: rest
    else (jid, tokens) :: push_token from_jid token rest

def Server.reg_notify (s : Server) (from_jid : String) (token : Token) (params results : KVS) :
    Result :=
  s.handler Server.find_conference ["cid"] params results fun c =>
    .ok (0, results, { c with
      reg_notify_tokens_ := push_token from_jid token c.reg_notify_tokens_ })

def Server.get_params (s : Server) (w : World) (params results : KVS) : Result :=
  s.handler Server.find_conference ["cid"] params results fun c =>
    c.getParams w.texts params results

def Server.set_params (s : Server) (params results : KVS) : Result :=
  s.handler Server.find_conference ["cid"] params results fun c => c.setParams params results

/-! ## The dispatcher -/

/-- An answer goes out only when there is a token. -/
def respond (token : Token) (result : String) (param : Option String) : List Answer :=
  if token = 0 then [] else [⟨token, result, param⟩]

/-- `rc < 0 ? "err" : "ok"`. -/
def result_text (rc : Int) : String := if rc < 0 then "err" else "ok"

def response_line (result param : String) : List Char :=
  "\tresponse: result=".toList ++ result.toList ++ ", param=".toList ++ param.toList ++
    "\n".toList

/-- `zkrbt_mse_respond_log`, when there is a token. -/
def respond_log (token : Token) (result param : String) : Except Fault (List Answer) :=
  if token = 0 then .ok []
  else do
    log (response_line result param)
    return [⟨token, result, some param⟩]

/-- The handler of the commands that all answer in the same way. -/
def Server.dispatch (s : Server) (w : World) (params : KVS) (str_cmd : String) : Option Result :=
  if str_cmd = "create_conference" then some (s.create_conference w params [])
  else if str_cmd = "list_conferences" then some (s.list_conferences [])
  else if str_cmd = "info_conference" then some (s.info_conference w params [])
  else if str_cmd = "set_params" then some (s.set_params params [])
  else if str_cmd = "get_params" then some (s.get_params w params [])
  else if str_cmd = "fc.add_source" then some (s.fc_add_source w params [])
  else if str_cmd = "fc.del_source" then some (s.fc_del_source params [])
  else if str_cmd = "fc.list_sources" then some (s.fc_list_sources params [])
  else if str_cmd = "fc.add_sink" then some (s.fc_add_sink w params [])
  else if str_cmd = "fc.del_sink" then some (s.fc_del_sink params [])
  else if str_cmd = "dc.add_stream" then some (s.dc_add_stream w params [] false)
  else if str_cmd = "dc.del_stream" then some (s.dc_del_stream params [])
  else if str_cmd = "dc.add_stream_with_publisher" then some (s.dc_add_stream w params [] true)
  else if str_cmd = "dc.list_streams" then some (s.dc_list_streams params [])
  else if str_cmd = "dc.add_source" then some (s.dc_add_source w params [])
  else if str_cmd = "dc.del_source" then some (s.dc_del_source params [])
  else if str_cmd = "dc.add_sink" then some (s.dc_add_sink w params [])
  else if str_cmd = "dc.del_sink" then some (s.dc_del_sink params [])
  else if str_cmd = "dc.get_all_videos" then some (s.dc_get_all_videos params [])
  else if str_cmd = "dc.vs_exchange_position" then some (s.dc_vs_exchange_position params [])
  else none

/-- The text of `VERSION_STR`, with the time of the build. -/
def version_str (w : World) : String := "v0.4.8.18: build at: " ++ w.timestamp

/-- The part of `callback_command` after the options were read. -/
def Server.command (s : Server) (w : World) (remote_jid str_cmd : String) (params : KVS)
    (token : Token) : Except Fault (List Answer × Server) :=
  if str_cmd = "get_version" ∨ str_cmd = "version" then do
    let answers ← respond_log token "ok" (version_str w)
    return (answers, s)
  else if str_cmd = "sys_info" then do
    let answers ← respond_log token "ok" w.sys_info
    return (answers, s)
  else if str_cmd = "destroy_conference" then do
    let (rc, results, s, tokens) ← s.destroy_conference params []
    let answers ← respond_log token (result_text rc) (util_encode_options results)
    -- The destructor answers first, also when a token is 0.
    return ((tokens.map fun token => ⟨token, "err", none⟩) ++ answers, s)
  else if str_cmd = "reg_notify" then do
    let (rc, results, s) ← s.reg_notify remote_jid token params []
    if rc < 0 then
      let answers ← respond_log token "err" (util_encode_options results)
      return (answers, s)
    else return ([], s)
  else match s.dispatch w params str_cmd with
    | some r => do
      let (rc, results, s) ← r
      -- This branch calls `zkrbt_mse_respond` itself.
      if str_cmd = "fc.del_sink" then
        return (respond token (result_text rc) (some (util_encode_options results)), s)
      else
        let answers ← respond_log token (result_text rc) (util_encode_options results)
        return (answers, s)
    | none => .ok (respond token "err" (some "UNKWON cmd"), s)

/-- An option text that is 0 is printed as `(null)`. -/
def command_line (str_cmd : String) (str_option : Option String) (remote_jid : String) :
    List Char :=
  "[XMPP]: cmd=".toList ++ str_cmd.toList ++ ": cmd_opt=".toList ++
    (str_option.getD "(null)").toList ++ ", from=".toList ++ remote_jid.toList ++ "\n".toList

def Server.callback_command (s : Server) (w : World) (remote_jid str_cmd : String)
    (str_option : Option String) (token : Token) : Except Fault (List Answer × Server) := do
  let params ← util_parse_options str_option
  log (command_line str_cmd str_option remote_jid)
  s.command w remote_jid str_cmd params token

/-! ## The loop -/

/-- The line of a member that is deleted because it died. -/
def death_line (kind : String) (id : Int) (desc : String) : List Char :=
  "[Conference] Conference::run_once: ".toList ++ kind.toList ++ " DEATH: sid=".toList ++
    (text_i id).toList ++ ", desc=".toList ++ desc.toList ++ "\n".toList

/-- What the turn of a conference logs of its members. A death is set in an earlier turn. -/
def turn_lines (env : Env) (c : Conference) : List (List Char) :=
  env.rtcp_lines.map String.toList ++
  (c.sources_.filter Source.death_).map (fun s => death_line "SOURCE" s.source_id s.desc) ++
  (c.sinks_.filter Sink.death_).map (fun s => death_line "SINK" s.sink_id s.desc) ++
  (c.streams_.filter Stream.death_).map (fun s => death_line "STREAM" s.stream_id s.desc)

/-- `run_once` on every conference. `env i` is what the world gives to the `i`-th
one. The lines of a turn come first here. -/
def run_once_all (env : Nat → Env) : Nat → List Conference → Except Fault (List Conference)
  | _, [] => .ok []
  | i, c :: cs => do
    (turn_lines (env i) c).forM log
    let c ← c.run_once (env i)
    let cs ← run_once_all env (i + 1) cs
    return c :: cs

/-- `remove_if` with `func_idle`: an idle conference is deleted and removed. Also
the tokens that the destructors answer. -/
def func_idle_all : List Conference → Except Fault (List Conference × List Token)
  | [] => .ok ([], [])
  | c :: cs =>
    if c.idle then do
      let (_, tokens) ← c.destroy
      let (cs, rest) ← func_idle_all cs
      return (cs, tokens ++ rest)
    else do
      let (cs, rest) ← func_idle_all cs
      return (c :: cs, rest)

/-- The two sections of the loop of `Server::run`. -/
inductive Section
  | run_once
  | sweep
  deriving DecidableEq

/-- The server, and the section that its loop comes to next. -/
structure System where
  mcu : Server
  next : Section

def System.new (cap_max : Nat) : System where
  mcu := Server.new cap_max
  next := .run_once

inductive Action
  | command (w : World) (remote_jid str_cmd : String) (str_option : Option String) (token : Token)
  | loop (env : Nat → Env)

/-- A command of a client while nothing else happens. -/
def Action.ask (str_cmd str_option : String) : Action :=
  .command World.still "client" str_cmd (some str_option) 1

/-- A section of the loop at a time. -/
def Action.turn_at (now : Int) : Action := .loop fun _ => { Env.still with now }

def step (s : System) : Action → Except Fault System
  | .command w remote_jid str_cmd str_option token => do
    let (_, mcu) ← s.mcu.callback_command w remote_jid str_cmd str_option token
    return { s with mcu }
  | .loop env =>
    match s.next with
    | .run_once => do
      let conferences_ ← run_once_all env 0 s.mcu.conferences_
      return { mcu := { s.mcu with conferences_ }, next := .sweep }
    | .sweep => do
      let (conferences_, _) ← func_idle_all s.mcu.conferences_
      return { mcu := { s.mcu with conferences_ }, next := .run_once }

end zonekey_mcu.server
