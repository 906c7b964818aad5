-- The FLV writer: one file that gets a metadata tag and the tags of the audio with the
-- first sound, the tags of the video from the first key frame on, and the length and
-- the size of the recording when it is closed.
import ZonekeyMcu.Amf
import ZonekeyMcu.AnnexB

namespace zonekey_mcu.flv_writer

open big_endian

/-- What the writer takes from the machine: the arithmetic of `double`, a `double` as its
eight bytes, and what stands in variables that nothing has set. -/
structure Machine where
  of_int : Int → UInt64
  /-- `1000.0 * (stamp - stamp_begin_video_) + stamp_av_origin_diff`, as `unsigned int`. -/
  video_stamp : UInt64 → UInt64 → UInt64 → UInt32
  /-- `stamp_audio_ / 1000.0`. -/
  duration : UInt32 → UInt64
  unset_int : Nat → Int
  unset_byte : Nat → UInt8

/-! ## ADTS -/

def aac_sample_freq_table : List Int :=
  [96000, 88200, 64000, 48000, 44100, 32000, 24000, 22050, 16000, 12000, 11025, 8000, 7359,
    -1, -1, -1]

structure Adts where
  chs : Int
  samples : Int
  bits : Int
  len : Int

/-- No values are a header with another sync word. -/
def aac_parse_adts (ptr : List UInt8) : Except Fault (Option Adts) := do
  let p0 ← annexb.byte ptr 0
  if p0 ≠ 0xff then return none
  else do
    let p1 ← annexb.byte ptr 1
    if p1 ≠ 0xf1 then return none
    else do
      let p2 ← annexb.byte ptr 2
      let p3 ← annexb.byte ptr 3
      let p4 ← annexb.byte ptr 4
      let p5 ← annexb.byte ptr 5
      let len := (p3 &&& 0x3).toNat * 2048 + p4.toNat * 8 + ((p5 &&& 0xe0) >>> 5).toNat
      let chs := (p2 &&& 0x1).toNat * 4 + ((p3 &&& 0xc0) >>> 6).toNat
      let samples_index := ((p2 &&& 0x3c) >>> 2).toNat
      return some ⟨chs, aac_sample_freq_table.getD samples_index 0, 16, len⟩

/-- The four variables from `i` on after a call of `aac_parse_adts`, which may have set
none of them. -/
def adts_values (m : Machine) (i : Nat) (data : List UInt8) : Except Fault Adts := do
  match ← aac_parse_adts data with
  | some adts => return adts
  | none => return ⟨m.unset_int i, m.unset_int (i + 1), m.unset_int (i + 2), m.unset_int (i + 3)⟩

/-- The two bytes of the extension, as they stand when the rate is in no table. -/
def buildAudioConfigExt (m : Machine) (samplerate chs : Int) : List UInt8 :=
  match aac_sample_freq_table.idxOf? samplerate with
  | some index =>
    let d : UInt16 := (UInt16.ofNat index <<< 7) ||| 0x1000 ||| UInt16.ofInt (chs * 8)
    bytes_of 2 d.toNat
  | none => [m.unset_byte 0, m.unset_byte 1]

/-! ## The metadata -/

def ascii (s : String) : List UInt8 := s.toList.map fun c => UInt8.ofNat c.toNat

/-- The properties of `onMetaData`, in their order. -/
def metadata (m : Machine) (width height a_bits a_rate a_chs a_id : Int) :
    List (List UInt8 × amf.Atom) :=
  [(ascii "duration", .Number (m.of_int 0)),
    (ascii "filesize", .Number (m.of_int 0)),
    (ascii "width", .Number (m.of_int width)),
    (ascii "height", .Number (m.of_int height)),
    (ascii "videocodecid", .Number (m.of_int 7)),
    (ascii "audiosamplesize", .Number (m.of_int a_bits)),
    (ascii "audiosamplerate", .Number (m.of_int a_rate)),
    (ascii "stereo", .Boolean (a_chs = 2)),
    (ascii "audiocodecid", .Number (m.of_int a_id)),
    (ascii "builder", .String (ascii "Zonekey flv muxer")),
    (ascii "version", .String (ascii "1.0 rc2"))]

def metadata_body (m : Machine) (width height a_bits a_rate a_chs a_id : Int) :
    Option (List UInt8) := do
  let name ← amf.atom_encode (.String (ascii "onMetaData"))
  let body ← amf.atom_encode (.MixArray 12 (metadata m width height a_bits a_rate a_chs a_id))
  return name ++ body

/-- `FlvTagHead`, with the stamp in three bytes and its high byte after them. -/
def tag_head (type : UInt8) (stamp : UInt32) (datasize : Nat) : List UInt8 :=
  type :: (bytes_of 3 datasize ++ (bytes_of 3 stamp.toNat ++
    (UInt8.ofNat (stamp.toNat / 16777216) :: [0, 0, 0])))

/-- The tag, or the end of the process for a value that has no encoding. -/
def flv_make_metadata_tag (m : Machine) (width height a_bits a_rate a_chs a_id : Int) :
    Except Fault (List UInt8) :=
  match metadata_body m width height a_bits a_rate a_chs a_id with
  | none => .error .assertFailed
  | some body =>
    let datasize := body.length
    let tagsize := datasize + 11
    .ok (tag_head 0x12 0 datasize ++ (body ++ bytes_of 4 tagsize))

/-! ## The writer -/

def AAC : Nat := 10
def SPEEX : Nat := 11

structure Ctx where
  /-- The bytes of the file. -/
  file_ : List UInt8
  audio_type_ : Nat
  stamp_audio_ : UInt32
  stamp_video_ : UInt32
  stamp_last_video_ : UInt32
  stamp_begin_audio_ : UInt64
  stamp_begin_video_ : UInt64
  stamp_av_origin_diff : UInt64
  video_spec_ : Bool
  file_size_ : UInt64
  av_delta_ : Int

/-- A write that succeeds. -/
def Ctx.flv_write_data (c : Ctx) (data : List UInt8) : Ctx := { c with file_ := c.file_ ++ data }

/-- "FLV", version 1, audio and video, the size of the header and PreviousTagSize0. -/
def FLVX_HEADER : List UInt8 := [0x46, 0x4c, 0x56, 1, 5, 0, 0, 0, 9, 0, 0, 0, 0]

/-- The new writer after `open`. The stamps that start with the first frames hold what
stood in memory. -/
def Ctx.open (stamp_begin_audio_ stamp_begin_video_ stamp_av_origin_diff : UInt64) : Ctx :=
  { file_ := FLVX_HEADER, audio_type_ := 0, stamp_audio_ := 0, stamp_video_ := 0,
    stamp_last_video_ := 0, stamp_begin_audio_, stamp_begin_video_, stamp_av_origin_diff,
    video_spec_ := false, file_size_ := UInt64.ofNat FLVX_HEADER.length, av_delta_ := 0 }

section

variable (m : Machine)

/-- The bytes of the file with eight bytes at a place written over. -/
def patch (file : List UInt8) (at_ : Nat) (bytes : List UInt8) : List UInt8 :=
  file.take at_ ++ (bytes ++ file.drop (at_ + bytes.length))

def modifyDuration (file : List UInt8) (duration : UInt64) : List UInt8 :=
  patch file 0x35 (bytes_of 8 duration.toNat)

def modifyFilesize (file : List UInt8) (pos : UInt64) : List UInt8 :=
  patch file (0x35 + 8 + 2 + 9) (bytes_of 8 (m.of_int pos.toNat).toNat)

/-- The file that `close` leaves. -/
def Ctx.close (c : Ctx) : List UInt8 :=
  if c.audio_type_ ≠ 0 then
    modifyFilesize m (modifyDuration c.file_ (m.duration c.stamp_audio_)) c.file_size_
  else c.file_

def Ctx.flv_write_meta_tag (c : Ctx) (width height a_bits a_rate a_chs a_id : Int) :
    Except Fault Ctx := do
  let str ← flv_make_metadata_tag m width height a_bits a_rate a_chs a_id
  return c.flv_write_data str

/-! ### Audio -/

def Ctx.write_aac_spec (c : Ctx) (data : List UInt8) : Except Fault Ctx := do
  let adts ← adts_values m 4 data
  let extra := buildAudioConfigExt m adts.samples adts.chs
  let prev_size := 13 + 2
  let datasize := 2 + 2
  let tag := tag_head 0x08 0 datasize ++ ([0xaf, 0] ++ (extra ++ bytes_of 4 prev_size))
  return { c.flv_write_data tag with file_size_ := c.file_size_ + (13 + 2 + 4) }

/-- An audio tag with the data behind its flags, which moves the stamp on. -/
def Ctx.write_audio (c : Ctx) (flags data : List UInt8) (ms : UInt32) : Ctx :=
  let tag_size := data.length + flags.length + 11
  let c := c.flv_write_data (tag_head 0x08 c.stamp_audio_ (data.length + flags.length))
  let c := { c with stamp_audio_ := c.stamp_audio_ + ms }
  let c := c.flv_write_data flags
  let c := c.flv_write_data data
  let c := c.flv_write_data (bytes_of 4 tag_size)
  -- ntohl(tag_size) + 4, in 32 bits
  { c with file_size_ := c.file_size_ + (UInt32.ofNat tag_size + 4).toUInt64 }

def Ctx.save_aac (c : Ctx) (data : List UInt8) (stamp : UInt64) : Except Fault Ctx := do
  if c.audio_type_ ≠ 0 ∧ c.audio_type_ ≠ AAC then return c
  else do
    let c ← if c.audio_type_ = 0 then do
        let c := { c with audio_type_ := AAC }
        let adts ← adts_values m 0 data
        let c ← c.flv_write_meta_tag m 960 540 adts.bits adts.samples adts.chs AAC
        let c := { c with stamp_begin_audio_ := stamp }
        c.write_aac_spec m data
      else .ok c
    if data.length < 7 then .error .outOfBounds
    else return c.write_audio [0xaf, 1] (data.drop 7) 32

def Ctx.save_speex (c : Ctx) (data : List UInt8) (stamp : UInt64) : Except Fault Ctx := do
  if c.audio_type_ ≠ 0 ∧ c.audio_type_ ≠ SPEEX then return c
  else do
    let c ← if c.audio_type_ = 0 then do
        let c := { c with audio_type_ := SPEEX, stamp_begin_audio_ := stamp }
        c.flv_write_meta_tag m 960 540 16 16000 1 SPEEX
      else .ok c
    return c.write_audio [0xb6] data 20

/-! ### Video -/

/-- A pointer into the parsed frame, with the size of the unit there. -/
abbrev NalPtr := Option (List UInt8 × Nat)

/-- The loop of `write_h264_spec`: the last SPS and the last PPS. -/
def spec_loop : Nat → List UInt8 → NalPtr → NalPtr → Except Fault (NalPtr × NalPtr)
  | _, [], sps, pps => .ok (sps, pps)
  | 0, _ :: _, _, _ => .error .neverReturns
  | fuel + 1, ptr, sps, pps => do
    let b0 ← annexb.byte ptr 0
    let b1 ← annexb.byte ptr 1
    let b2 ← annexb.byte ptr 2
    let b3 ← annexb.byte ptr 3
    let nal_size := value_of [b0, b1, b2, b3]
    let b4 ← annexb.byte ptr 4
    let nal_type := b4 &&& 0x1f
    let sps := if nal_type = 7 then some (ptr.drop 4, nal_size) else sps
    let pps := if nal_type = 8 then some (ptr.drop 4, nal_size) else pps
    spec_loop fuel (ptr.drop (nal_size + 4)) sps pps

/-- The decoder configuration in its buffer of 128 bytes. -/
def h264_extra (sps pps : NalPtr) : Except Fault (List UInt8) :=
  match sps with
  -- sps is a null pointer
  | none => .error .outOfBounds
  | some (sps, sps_size) => do
    let profile ← annexb.byte sps 1
    let compat ← annexb.byte sps 2
    let level ← annexb.byte sps 3
    let (pps, pps_size) := pps.getD ([], 0)
    if 128 < 8 + sps_size + 3 + pps_size then .error .outOfBounds
    else return [1, profile, compat, level, 0xff, 0xe1] ++ (bytes_of 2 sps_size ++
      (sps.take sps_size ++ (1 :: (bytes_of 2 pps_size ++ pps.take pps_size))))

/-- `base` is the address of the data. -/
def Ctx.write_h264_spec (c : Ctx) (base : Nat) (data : List UInt8) : Except Fault Ctx := do
  let out ← annexb.avc_parse_nal_units base data
  let (sps, pps) ← spec_loop out.length out none none
  let extra ← h264_extra sps pps
  -- the tag has a buffer of 128 bytes too
  if 128 < 16 + extra.length + 4 then .error .outOfBounds
  else
    let tag := tag_head 9 0 (5 + extra.length) ++ ([0x17, 0, 0, 0, 0] ++
      (extra ++ bytes_of 4 (16 + extra.length)))
    return { c.flv_write_data tag with
      file_size_ := c.file_size_ + UInt64.ofNat (16 + extra.length + 4) }

/-- The stamp of a video frame: it never goes back. -/
def Ctx.next_stamp_video (c : Ctx) (stamp : UInt64) : Ctx :=
  let stamp_video_ :=
    m.video_stamp stamp c.stamp_begin_video_ c.stamp_av_origin_diff + UInt32.ofInt c.av_delta_
  let stamp_video_ := if stamp_video_ < c.stamp_last_video_ then c.stamp_last_video_ + 5
    else stamp_video_
  { c with stamp_video_, stamp_last_video_ := stamp_video_ }

/-- After a minute of sound, a millisecond for each frame that is more than 300 away. -/
def Ctx.adjust_av_delta (c : Ctx) : Ctx :=
  if c.stamp_audio_ > 60000 then
    if c.stamp_audio_ > c.stamp_video_ then
      if c.stamp_audio_ - c.stamp_video_ > 300 then { c with av_delta_ := c.av_delta_ + 1 } else c
    else if c.stamp_audio_ < c.stamp_video_ then
      if c.stamp_video_ - c.stamp_audio_ > 300 then { c with av_delta_ := c.av_delta_ - 1 } else c
    else c
  else c

/-- The four bytes of a number in the other order, read as an `int`. -/
def htonl_int (n : Nat) : Int :=
  let swapped := value_of (bytes_of 4 n).reverse
  if swapped < 2147483648 then swapped else (swapped : Int) - 4294967296

def Ctx.write_video (c : Ctx) (base : Nat) (data : List UInt8) (key : Bool) :
    Except Fault Ctx := do
  let ptr ← annexb.avc_parse_nal_units base data
  let raw_size := ptr.length
  let c := c.flv_write_data (tag_head 9 c.stamp_video_ (raw_size + 5))
  let c := c.flv_write_data [if key then 0x17 else 0x27, 1, 0, 0, 0]
  let c := c.flv_write_data ptr
  let c := c.flv_write_data (bytes_of 4 (raw_size + 5 + 11))
  -- the size is added with its bytes still in network order
  let tagsize := htonl_int (raw_size + 5 + 11)
  return { c with file_size_ := c.file_size_ + UInt64.ofInt (tagsize + 4) }

/-- What the first key frame does before it is written. -/
def Ctx.start_video (c : Ctx) (base : Nat) (data : List UInt8) (stamp : UInt64) :
    Except Fault Ctx := do
  let c ← c.write_h264_spec base data
  return { c with
    video_spec_ := true
    stamp_begin_video_ := stamp
    stamp_av_origin_diff := m.of_int c.stamp_audio_.toNat }

/-- The video waits for the audio, and for its first key frame. -/
def Ctx.save_h264 (c : Ctx) (base : Nat) (data : List UInt8) (key : Bool) (stamp : UInt64) :
    Except Fault Ctx := do
  if c.audio_type_ = 0 then return c
  else do
    let c ← if c.video_spec_ = false ∧ key = true then c.start_video m base data stamp else .ok c
    if c.video_spec_ = false then return c
    else ((c.next_stamp_video m stamp).adjust_av_delta).write_video base data key

end

/-! ## Calls -/

inductive Call
  | save_aac (data : List UInt8) (stamp : UInt64)
  | save_speex (data : List UInt8) (stamp : UInt64)
  | save_h264 (base : Nat) (data : List UInt8) (key : Bool) (stamp : UInt64)

def Ctx.call (m : Machine) (c : Ctx) : Call → Except Fault Ctx
  | .save_aac data stamp => c.save_aac m data stamp
  | .save_speex data stamp => c.save_speex m data stamp
  | .save_h264 base data key stamp => c.save_h264 m base data key stamp

end zonekey_mcu.flv_writer
