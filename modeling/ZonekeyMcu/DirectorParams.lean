-- The parameters of a director conference: the place of each picture, the
-- z-order, and the encoder. A stream is named by its id, and the mixer knows
-- only its channel id.
import ZonekeyMcu.Conference

open memory zonekey_mcu.members zonekey_mcu.options zonekey_mcu.director

namespace zonekey_mcu.conference

/-- The conference with the answer of a call on the video mixer. -/
def Conference.with_video_mixer (c : Conference) (m : video_mixer.CTX) : Conference :=
  { c with filters := { c.filters with video_mixer := m } }

/-! ## Set parameters -/

def Conference.sp_v_desc (c : Conference) (params results : KVS) : Result :=
  if chk_params params ["streamid", "x", "y", "width", "height", "alpha"] = none then do
    let s ← c.find_stream (param_i params "streamid")
    match s with
    | none => return (-1, KVS.set "reason" "can't find the streamid" results, c)
    | some s =>
      let (_, m) ← c.filters.video_mixer.set_channel_desc
        { id := s.channel_id
          x := param_i params "x"
          y := param_i params "y"
          width := param_i params "width"
          height := param_i params "height"
          alpha := param_i params "alpha" }
      return (0, results, c.with_video_mixer m)
  else .ok (-1, KVS.set "reason"
    "for 'v.desc' the 'streamid', 'x', 'y', 'width', 'height' and 'alpha' MUST supply" results, c)

/-- The operation that the text `oper` names. -/
def zorder_oper (soper : String) : Option video_mixer.ZOrderOper :=
  if soper = "top" then some .TOP
  else if soper = "up" then some .UP
  else if soper = "down" then some .DOWN
  else if soper = "bottom" then some .BOTTOM
  else none

def Conference.sp_v_zorder (c : Conference) (params results : KVS) : Result :=
  if chk_params params ["streamid", "oper"] = none then do
    let s ← c.find_stream (param_i params "streamid")
    match s with
    | none => return (-1, KVS.set "reason" "can't find the streamid" results, c)
    | some s =>
      match zorder_oper (param params "oper") with
      | none => return (-1, KVS.set "reason"
          "for 'v.zorder', only support 'up'/'down'/'top'/'bottom'!" results, c)
      | some oper =>
        let (_, m) ← c.filters.video_mixer.rezorder s.channel_id oper
        return (0, results, c.with_video_mixer m)
  else .ok (-1, KVS.set "reason"
    "for 'v.zorder' the 'streamid' and 'oper' MUST supply!" results, c)

def Conference.sp_v_encoder (c : Conference) (params results : KVS) : Result :=
  match chk_params params ["width", "height", "fps", "kbps", "gop"] with
  | some info => .ok (-1, KVS.set "reason" info results, c)
  | none => .ok (0, results, c.with_video_mixer (c.filters.video_mixer.set_encoder
      { width := param_i params "width"
        height := param_i params "height"
        fps := param params "fps"
        kbps := param_i params "kbps"
        gop := param_i params "gop" }))

def unsupported_param (name : String) : String := "unsupported param: name='" ++ name ++ "'"

/-- A free conference takes all parameters and does nothing. -/
def Conference.setParams (c : Conference) (params results : KVS) : Result :=
  match c.type with
  | .CT_FREE => .ok (0, results, c)
  | .CT_DIRECTOR =>
    match chk_params params ["name"] with
    | some info => .ok (-1, KVS.set "reason" info results, c)
    | none =>
      let name := param params "name"
      if name = "v.desc" then c.sp_v_desc params results
      else if name = "v.zorder" then c.sp_v_zorder params results
      else if name = "v.encoder" then c.sp_v_encoder params results
      else .ok (-1, KVS.set "reason" (unsupported_param name) results, c)

/-! ## Get parameters -/

/-- The texts that the model takes as given: the statistics of the video mixer,
and the frame rate as `"%f"` prints it. -/
structure Texts where
  stats : KVS
  fps : String → String

def desc_answer (desc : video_mixer.ChannelDesc) (results : KVS) : KVS :=
  KVS.set "alpha" (text_i desc.alpha) (KVS.set "height" (text_i desc.height)
    (KVS.set "width" (text_i desc.width) (KVS.set "y" (text_i desc.y)
      (KVS.set "x" (text_i desc.x) results))))

def Conference.gp_v_desc (c : Conference) (params results : KVS) : Result :=
  if chk_params params ["streamid"] ≠ none then
    .ok (-1, KVS.set "reason" "for 'v.desc', the streamid MUST supply!" results, c)
  else do
    let s ← c.find_stream (param_i params "streamid")
    match s with
    | none => return (-1, KVS.set "reason" "can't find the streamid" results, c)
    | some s =>
      match c.filters.video_mixer.get_channel_desc s.channel_id with
      | none => return (-1, KVS.set "reason" "zonekey video mixer err :(" results, c)
      | some desc => return (0, desc_answer desc results, c)

def Conference.gp_v_encoder (c : Conference) (texts : Texts) (results : KVS) : Result :=
  let setting := c.filters.video_mixer.get_encoder
  .ok (0, KVS.set "gop" (text_i setting.gop) (KVS.set "kbps" (text_i setting.kbps)
    (KVS.set "fps" (texts.fps setting.fps) (KVS.set "height" (text_i setting.height)
      (KVS.set "width" (text_i setting.width) results)))), c)

def Conference.gp_v_stat (c : Conference) (texts : Texts) (results : KVS) : Result :=
  .ok (0, texts.stats.foldl (fun kvs kv => KVS.set kv.1 kv.2 kvs) results, c)

/-- The video stream of channel `cid`. -/
def Conference.get_v_stream_from_cid (c : Conference) (cid : Int) :
    Except Fault (Option Stream) :=
  c.mem.find .useAfterDelete Stream.ptr
    (fun s => s.payload_type = 100 ∧ (s.channel_id : Int) = cid) c.streams_

/-- The texts of the streams of some channels, in order. -/
def Conference.texts_of (c : Conference) (text : Int → Stream → String) :
    List Int → Except Fault String
  | [] => .ok ""
  | cid :: cids => do
    let s ← c.get_v_stream_from_cid cid
    let rest ← c.texts_of text cids
    return (match s with | some s => text cid s | none => "") ++ rest

def Conference.gp_v_zorder (c : Conference) (results : KVS) : Result := do
  let orders := c.filters.video_mixer.get_zorder_array.take video_mixer.MAX_CHANNELS
  let text ← c.texts_of (fun _ s => text_i s.stream_id ++ ",") orders
  return (0, KVS.set "zorder_array" (text ++ "-1") results, c)

def state_line (m : video_mixer.CTX) (cid : Int) (s : Stream) : String :=
  match m.get_channel_desc cid with
  | none => ""
  | some desc => text_i s.stream_id ++ " " ++ text_i cid ++ " " ++ text_i desc.x ++ " " ++
      text_i desc.y ++ " " ++ text_i desc.width ++ " " ++ text_i desc.height ++ " " ++
      text_i desc.alpha ++ "\n"

def Conference.gp_v_comple_state (c : Conference) (results : KVS) : Result := do
  let orders := c.filters.video_mixer.get_zorder_array.take video_mixer.MAX_CHANNELS
  let text ← c.texts_of (state_line c.filters.video_mixer) (orders.takeWhile (· ≠ -1))
  return (0, KVS.set "state" text results, c)

def Conference.getParams (c : Conference) (texts : Texts) (params results : KVS) : Result :=
  match c.type with
  | .CT_FREE => .ok (0, results, c)
  | .CT_DIRECTOR =>
    match chk_params params ["name"] with
    | some info => .ok (-1, KVS.set "reason" info results, c)
    | none =>
      let name := param params "name"
      if name = "v.desc" then c.gp_v_desc params results
      else if name = "v.zorder" then c.gp_v_zorder results
      else if name = "v.encoder" then c.gp_v_encoder texts results
      else if name = "v.stat" then c.gp_v_stat texts results
      else if name = "v.complete_state" then c.gp_v_comple_state results
      else .ok (-1, results, c)

/-! ## Exchange of two places -/

/-- The two streams change places. Other ids, and ids of audio streams, fail. -/
def Conference.vs_exchange_position (c : Conference) (id1 id2 : Int) :
    Except Fault (Int × Conference) :=
  match c.type with
  | .CT_FREE => .ok (0, c)
  | .CT_DIRECTOR => do
    let s1 ← c.find_stream id1
    let s2 ← c.find_stream id2
    match s1, s2 with
    | some s1, some s2 =>
      if s1.payload_type = 100 ∧ s2.payload_type = 100 then
        let m := c.filters.video_mixer
        match m.get_channel_desc s1.channel_id, m.get_channel_desc s2.channel_id with
        | some desc1, some desc2 =>
          let (_, m) ← m.set_channel_desc { desc2 with id := s1.channel_id }
          let (_, m) ← m.set_channel_desc { desc1 with id := s2.channel_id }
          return (0, c.with_video_mixer m)
        | _, _ => return (0, c)
      else return (-1, c)
    | _, _ => return (-1, c)

end zonekey_mcu.conference
