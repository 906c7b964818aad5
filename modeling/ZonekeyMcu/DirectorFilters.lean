-- The mixers of a director conference: how a stream gets a channel, where its
-- picture goes, and how the channel is given back.
import ZonekeyMcu.FilterGraph
import ZonekeyMcu.Members
import ZonekeyMcu.Options

open zonekey_mcu.members zonekey_mcu.options zonekey_mcu.filter_graph

namespace zonekey_mcu.director

/-- The filters of `DirectorConference`, and its two counters. -/
structure Filters where
  links : Links
  video_mixer : video_mixer.CTX
  audio_stream_cnt_ : Int
  video_stream_cnt_ : Int

/-- The links that the constructor makes. -/
def first_links : Links :=
  [⟨.audio_mixer_, audio_mixer.PREVIEW_PIN, .audio_resample_, 0⟩,
    ⟨.audio_resample_, 0, .audio_encoder_, 0⟩,
    ⟨.audio_encoder_, 0, .audio_publisher_, 0⟩,
    ⟨.video_mixer_, 1, .video_tee_, 0⟩,
    ⟨.video_tee_, MAX_STREAMS, .video_publisher_, 0⟩]

def Filters.new (want_alpha : Nat → Int) : Filters where
  links := first_links
  video_mixer := video_mixer.CTX.new want_alpha
  audio_stream_cnt_ := 0
  video_stream_cnt_ := 0

def Filters.link (f : Filters) (f1 : MSFilter) (pin1 : Nat) (f2 : MSFilter) (pin2 : Nat) :
    Filters :=
  { f with links := (ms_filter_link f.links f1 pin1 f2 pin2).2 }

def Filters.unlink (f : Filters) (f1 : MSFilter) (pin1 : Nat) (f2 : MSFilter) (pin2 : Nat) :
    Filters :=
  { f with links := (ms_filter_unlink f.links f1 pin1 f2 pin2).2 }

/-! ## Audio streams -/

/-- The first pin of the mixer with no output. -/
def Filters.find_audio_free_pin (f : Filters) : Except Fault Nat :=
  match (List.range MAX_STREAMS).find? fun i => (outputs f.links .audio_mixer_ i).isNone with
  | some i => .ok i
  -- assert(0)
  | none => .error .assertFailed

def Filters.add_audio_stream (f : Filters) (s : Stream) : Except Fault (Int × Stream × Filters) :=
  if f.audio_stream_cnt_ ≥ MAX_STREAMS then .ok (-2, s, f)
  else do
    let cid ← f.find_audio_free_pin
    let f := f.link (.source_filter s.ptr) 0 .audio_mixer_ cid
    let f := if s.support_sink then f.link .audio_mixer_ cid (.sink_filter s.ptr) 0 else f
    return (0, s.set_channel_id cid, { f with audio_stream_cnt_ := f.audio_stream_cnt_ + 1 })

def Filters.del_audio_stream (f : Filters) (s : Stream) : Int × Filters :=
  let cid := s.channel_id
  let f := f.unlink (.source_filter s.ptr) 0 .audio_mixer_ cid
  let f := if s.support_sink then f.unlink .audio_mixer_ cid (.sink_filter s.ptr) 0 else f
  (0, { f with audio_stream_cnt_ := f.audio_stream_cnt_ - 1 })

/-! ## Video streams -/

/-- The first idle channel of the mixer, which is in use from now on. -/
def Filters.find_video_free_pin (f : Filters) : Except Fault (Nat × Filters) := do
  let (cid, video_mixer) ← f.video_mixer.get_channel
  -- assert(cid >= 0)
  if cid < 0 then .error .assertFailed
  else return (cid.toNat, { f with video_mixer })

/-- The place that the command gives, in percent of the canvas. -/
def layout_of_params (setting : video_mixer.EncoderSetting) (cid : Nat) (params : KVS) :
    video_mixer.ChannelDesc where
  id := cid
  x := (param_i params "dx" * setting.width).tdiv 100
  y := (param_i params "dy" * setting.height).tdiv 100
  width := (param_i params "dwidth" * setting.width).tdiv 100
  height := (param_i params "dheight" * setting.height).tdiv 100
  alpha := if chk_params params ["alpha"] = none then param_i params "alpha" else 255

/-- The place of channel `cid` in a grid of three by three. -/
def default_layout (setting : video_mixer.EncoderSetting) (cid : Nat) :
    video_mixer.ChannelDesc where
  id := cid
  width := setting.width.tdiv 3
  height := setting.height.tdiv 3
  x := (cid % 3 : Nat) * setting.width.tdiv 3
  y := (cid / 3 : Nat) * setting.height.tdiv 3
  alpha := 255

def Filters.set_video_stream_params_layout (f : Filters) (cid : Nat) (params : KVS) :
    Except Fault (Int × Filters) := do
  let curr_setting := f.video_mixer.get_encoder
  if chk_params params ["dx", "dy", "dwidth", "dheight"] = none then
    let (_, video_mixer) ←
      f.video_mixer.set_channel_desc (layout_of_params curr_setting cid params)
    return (1, { f with video_mixer })
  else
    let (_, video_mixer) ← f.video_mixer.set_channel_desc (default_layout curr_setting cid)
    return (0, { f with video_mixer })

def Filters.add_video_stream (f : Filters) (s : Stream) (params : KVS) :
    Except Fault (Int × Stream × Filters) :=
  if f.video_stream_cnt_ ≥ MAX_STREAMS then .ok (-2, s, f)
  else do
    let (cid, f) ← f.find_video_free_pin
    let f := f.link (.source_filter s.ptr) 0 .video_mixer_ cid
    let f := if s.support_sink then f.link .video_tee_ cid (.sink_filter s.ptr) 0 else f
    let (_, f) ← f.set_video_stream_params_layout cid params
    return (0, s.set_channel_id cid, { f with video_stream_cnt_ := f.video_stream_cnt_ + 1 })

def Filters.del_video_stream (f : Filters) (s : Stream) : Except Fault (Int × Filters) := do
  let cid := s.channel_id
  let (_, video_mixer) ← f.video_mixer.free_channel cid
  let f := { f with video_mixer }
  let f := f.unlink (.source_filter s.ptr) 0 .video_mixer_ cid
  let f := if s.support_sink then f.unlink .video_tee_ cid (.sink_filter s.ptr) 0 else f
  return (0, { f with video_stream_cnt_ := f.video_stream_cnt_ - 1 })

/-! ## Both kinds -/

def is_audio_payload (payload : Int) : Bool := payload = 110 ∨ payload = 0 ∨ payload = 102

def Filters.add_stream (f : Filters) (s : Stream) (params : KVS) :
    Except Fault (Int × Stream × Filters) :=
  if s.payload_type = 100 then f.add_video_stream s params
  else if is_audio_payload s.payload_type then f.add_audio_stream s
  else .ok (-1, s, f)

def Filters.del_stream (f : Filters) (s : Stream) : Except Fault (Int × Filters) :=
  if s.payload_type = 100 then f.del_video_stream s
  else if is_audio_payload s.payload_type then .ok (f.del_audio_stream s)
  else .ok (-1, f)

/-- No more streams of this kind fit in. -/
def Filters.full (f : Filters) (payload : Int) : Prop :=
  MAX_STREAMS ≤ if payload = 100 then f.video_stream_cnt_ else f.audio_stream_cnt_

theorem add_stream_full {f : Filters} {s : Stream}
    (hkind : s.payload_type = 100 ∨ is_audio_payload s.payload_type = true)
    (h : f.full s.payload_type) (params : KVS) : f.add_stream s params = .ok (-2, s, f) := by
  unfold Filters.full at h
  unfold Filters.add_stream
  by_cases hvideo : s.payload_type = 100
  · rw [if_pos hvideo] at h
    rw [if_pos hvideo]
    unfold Filters.add_video_stream
    rw [if_pos h]
  · rw [if_neg hvideo] at h
    rw [if_neg hvideo, if_pos (hkind.resolve_left hvideo)]
    unfold Filters.add_audio_stream
    rw [if_pos h]

end zonekey_mcu.director
