-- The receiving side of an RTP session. Datagrams wait in the socket until the application
-- asks for a packet. Then all of them are parsed, and the oldest packet that is due leaves
-- the queue.
import ZonekeyMcu.RtpQueue
import ZonekeyMcu.Lib.BigEndian

namespace zonekey_mcu.rtp_session

open big_endian runs

/-! ## Payload types -/

inductive PayloadKind where
  | audio_continuous
  | audio_packetized
  | video
  | other
  | text
  deriving DecidableEq

structure PayloadType where
  type : PayloadKind
  clock_rate : Nat
  deriving DecidableEq

/-- The table of a profile. An entry that was set later stands before the others. -/
abbrev RtpProfile := List (Nat × PayloadType)

def RTP_PROFILE_MAX_PAYLOADS : Int := 128

def rtp_profile_get_payload (prof : RtpProfile) (idx : Int) : Option PayloadType :=
  if idx < 0 ∨ RTP_PROFILE_MAX_PAYLOADS ≤ idx then none else prof.lookup idx.toNat

def rtp_profile_set_payload (prof : RtpProfile) (idx : Int) (pt : PayloadType) : RtpProfile :=
  if idx < 0 ∨ RTP_PROFILE_MAX_PAYLOADS ≤ idx then prof else (idx.toNat, pt) :: prof

/-- What `av_profile_init` sets. -/
def av_profile : RtpProfile :=
  [(0, ⟨.audio_continuous, 8000⟩), (1, ⟨.audio_packetized, 8000⟩),
    (3, ⟨.audio_packetized, 8000⟩), (7, ⟨.audio_packetized, 8000⟩),
    (4, ⟨.audio_packetized, 8000⟩), (8, ⟨.audio_continuous, 8000⟩),
    (9, ⟨.audio_packetized, 8000⟩), (10, ⟨.audio_continuous, 44100⟩),
    (11, ⟨.audio_continuous, 44100⟩), (18, ⟨.audio_packetized, 8000⟩),
    (31, ⟨.video, 90000⟩), (32, ⟨.video, 90000⟩), (34, ⟨.video, 90000⟩)]

/-- The profile of the server, with H.264, wide band speex and iLBC. -/
def server_profile : RtpProfile :=
  rtp_profile_set_payload
    (rtp_profile_set_payload
      (rtp_profile_set_payload av_profile 100 ⟨.video, 90000⟩) 110 ⟨.audio_packetized, 16000⟩)
    102 ⟨.audio_packetized, 8000⟩

/-! ## The session -/

/-- The header of a datagram in host order, and the rest of it. -/
def rtp_message : List UInt8 → Option Message
  | b0 :: b1 :: s1 :: s0 :: t3 :: t2 :: t1 :: t0 :: c3 :: c2 :: c1 :: c0 :: data =>
    some
      { rtp :=
          { version := (b0 >>> 6).toNat
            extbit := (b0 >>> 4) &&& 1 == 1
            cc := (b0 &&& 15).toNat
            markbit := b1 >>> 7 == 1
            paytype := (b1 &&& 127).toNat
            seq_number := UInt16.ofNat (value_of [s1, s0])
            timestamp := UInt32.ofNat (value_of [t3, t2, t1, t0])
            ssrc := UInt32.ofNat (value_of [c3, c2, c1, c0]) }
        data := data }
  | _ => none

structure rtp_stats_t where
  recv : Nat
  hw_recv : Nat
  packet_recv : Nat
  outoftime : Nat
  bad : Nat
  discarded : Nat
  deriving DecidableEq

structure RtpSession where
  snd_profile : RtpProfile
  rcv_profile : RtpProfile
  snd_pt : Int
  rcv_pt : Int
  hw_recv_pt : Int
  /-- The size of the buffer for a datagram. -/
  recv_buf_size : Nat
  /-- The system cuts a datagram that is longer; else it loses it and says so. -/
  recv_cuts : Bool
  ssrc_set : Bool
  rcv_ssrc : UInt32
  inc_ssrc_candidate : UInt32
  inc_same_ssrc_count : Int
  ssrc_changed_thres : Int
  /-- The halves of `hwrcv_extseq`. -/
  extseq_hi : UInt16
  extseq_lo : UInt16
  hwrcv_seq_at_last_SR : UInt16
  hwrcv_since_last_SR : Nat
  stats : rtp_stats_t
  telephone_events_pt : Int
  rq : List Message
  tev_rq : List Message
  max_rq_size : Int
  recv_not_started : Bool
  recv_sync : Bool
  first_packet_delivered : Bool
  rcv_last_ts : UInt32
  rcv_last_app_ts : UInt32
  /-- In whole seconds. -/
  time_jump : Nat
  ts_jump : UInt32
  /-- Some event queue is registered. -/
  eventqs : Bool
  stun_events : List (List UInt8)
  /-- `rtp_session_resync` is connected to the signal. -/
  on_ssrc_changed : Bool
  on_timestamp_jump : Bool
  jitter_enabled : Bool
  permissive : Bool
  adaptive : Bool
  /-- How often the session was resynchronised, which the source does not count. -/
  resyncs : Nat
  deriving DecidableEq

def UDP_MAX_SIZE : Nat := 1500

/-- A new session that receives. The jump limit is 5 s at 8000 Hz. -/
def rtp_session_init : RtpSession where
  snd_profile := av_profile
  rcv_profile := av_profile
  snd_pt := 0
  rcv_pt := -1
  hw_recv_pt := -1
  recv_buf_size := UDP_MAX_SIZE
  recv_cuts := true
  ssrc_set := false
  rcv_ssrc := 0
  inc_ssrc_candidate := 0
  inc_same_ssrc_count := 0
  ssrc_changed_thres := 50
  extseq_hi := 0
  extseq_lo := 0
  hwrcv_seq_at_last_SR := 0
  hwrcv_since_last_SR := 0
  stats := ⟨0, 0, 0, 0, 0, 0⟩
  telephone_events_pt := -1
  rq := []
  tev_rq := []
  max_rq_size := 100
  recv_not_started := true
  recv_sync := true
  first_packet_delivered := false
  rcv_last_ts := 0
  rcv_last_app_ts := 0
  time_jump := 5
  ts_jump := 40000
  eventqs := false
  stun_events := []
  on_ssrc_changed := false
  on_timestamp_jump := false
  jitter_enabled := true
  permissive := false
  adaptive := true
  resyncs := 0

def rtp_session_time_to_ts (s : RtpSession) (seconds : Nat) : UInt32 :=
  match rtp_profile_get_payload s.snd_profile s.snd_pt with
  | some payload => UInt32.ofNat (payload.clock_rate * seconds)
  | none => 0

/-- The limit that a session takes on for so many seconds. -/
def jump_limit (s : RtpSession) (seconds : Nat) : UInt32 :=
  if rtp_session_time_to_ts s seconds = 0 then 2147483648 else rtp_session_time_to_ts s seconds

def rtp_session_set_time_jump_limit (s : RtpSession) (seconds : Nat) : RtpSession :=
  { s with time_jump := seconds, ts_jump := jump_limit s seconds }

example : rtp_session_set_time_jump_limit rtp_session_init 5 = rtp_session_init := by decide

def payload_type_changed (s : RtpSession) (pt : PayloadType) : RtpSession :=
  { rtp_session_set_time_jump_limit s s.time_jump with permissive := pt.type = .video }

def rtp_session_update_payload_type (s : RtpSession) (paytype : Int) : RtpSession :=
  match rtp_profile_get_payload s.rcv_profile paytype with
  | some pt => payload_type_changed { s with hw_recv_pt := paytype } pt
  | none => s

def rtp_session_set_recv_payload_type (s : RtpSession) (paytype : Int) : RtpSession :=
  let s := { s with rcv_pt := paytype, hw_recv_pt := paytype }
  match rtp_profile_get_payload s.rcv_profile paytype with
  | some pt => payload_type_changed s pt
  | none => s

def rtp_session_set_payload_type (s : RtpSession) (pt : Int) : RtpSession :=
  rtp_session_set_recv_payload_type { s with snd_pt := pt } pt

def payload_type_changed_notify (s : RtpSession) (paytype : Int) : RtpSession :=
  match rtp_profile_get_payload s.rcv_profile paytype with
  | some _ => { s with rcv_pt := paytype }
  | none => s

/-! ## A datagram -/

def count_bad (s : RtpSession) : RtpSession :=
  { s with stats := { s.stats with bad := s.stats.bad + 1 } }

def rtp_session_resync (s : RtpSession) : RtpSession × Fates :=
  ({ s with
      rq := []
      recv_sync := true
      first_packet_delivered := false
      resyncs := s.resyncs + 1 },
    s.rq.map fun mp => (mp, .flushed))

/-- `rtp_signal_table_emit`, when only `rtp_session_resync` can be connected. -/
def emit (connected : Bool) (s : RtpSession) : RtpSession × Fates :=
  if connected then rtp_session_resync s else (s, [])

/-- Another SSRC than that of the session. -/
def count_candidate (s : RtpSession) (ssrc : UInt32) : RtpSession :=
  if s.inc_ssrc_candidate = ssrc then { s with inc_same_ssrc_count := s.inc_same_ssrc_count + 1 }
  else { s with inc_same_ssrc_count := 0, inc_ssrc_candidate := ssrc }

theorem count_candidate_eq (s : RtpSession) (ssrc : UInt32) :
    ∃ count candidate, count_candidate s ssrc =
      { s with inc_same_ssrc_count := count, inc_ssrc_candidate := candidate } := by
  unfold count_candidate
  split
  · exact ⟨_, s.inc_ssrc_candidate, rfl⟩
  · exact ⟨_, _, rfl⟩

/-- Locks on the first SSRC. Another one must come often enough, without the first between,
to take its place. The flag says whether the packet goes on. -/
def lock_ssrc (s : RtpSession) (mp : Message) : RtpSession × Fates × Bool :=
  if s.ssrc_set then
    if s.rcv_ssrc ≠ mp.rtp.ssrc then
      let s := count_candidate s mp.rtp.ssrc
      if s.ssrc_changed_thres ≤ s.inc_same_ssrc_count then
        let r := emit s.on_ssrc_changed
          { s with rcv_last_ts := mp.rtp.timestamp, rcv_ssrc := mp.rtp.ssrc }
        (r.1, r.2, true)
      else (count_bad s, [(mp, .bad)], false)
    else ({ s with inc_same_ssrc_count := 0 }, [], true)
  else ({ s with ssrc_set := true, rcv_ssrc := mp.rtp.ssrc }, [], true)

/-- The extended number of the newest packet. A number below 200 after one in the last 200
is taken for a new cycle. -/
def update_extseq (s : RtpSession) (seq : UInt16) : RtpSession :=
  if s.extseq_lo < seq then { s with extseq_lo := seq }
  else if seq < 200 ∧ 65336 < s.extseq_lo then
    { s with extseq_lo := seq, extseq_hi := s.extseq_hi + 1 }
  else s

def update_statistics (s : RtpSession) (seq : UInt16) : RtpSession :=
  let s := update_extseq s seq
  if s.stats.packet_recv = 1 then { s with hwrcv_seq_at_last_SR := seq } else s

theorem update_statistics_eq (s : RtpSession) (seq : UInt16) :
    ∃ hi lo first, update_statistics s seq =
      { s with extseq_hi := hi, extseq_lo := lo, hwrcv_seq_at_last_SR := first } := by
  have hextseq : ∃ hi lo, update_extseq s seq = { s with extseq_hi := hi, extseq_lo := lo } := by
    unfold update_extseq
    split_ifs
    · exact ⟨s.extseq_hi, _, rfl⟩
    · exact ⟨_, _, rfl⟩
    · exact ⟨s.extseq_hi, s.extseq_lo, rfl⟩
  obtain ⟨hi, lo, heq⟩ := hextseq
  unfold update_statistics
  rw [heq]
  dsimp only
  split
  · exact ⟨_, _, _, rfl⟩
  · exact ⟨_, _, s.hwrcv_seq_at_last_SR, rfl⟩

def check_payload_type (s : RtpSession) (paytype : Nat) : RtpSession :=
  if s.hw_recv_pt ≠ paytype then rtp_session_update_payload_type s paytype else s

/-- A packet of another type changes how packets are taken, and the jump limit. -/
theorem check_payload_type_eq (s : RtpSession) (paytype : Nat) :
    ∃ pt jump permissive, (jump = s.ts_jump ∨ jump = jump_limit s s.time_jump) ∧
      check_payload_type s paytype =
        { s with hw_recv_pt := pt, ts_jump := jump, permissive := permissive } := by
  unfold check_payload_type rtp_session_update_payload_type
  split
  · split
    · exact ⟨_, _, _, .inr rfl, rfl⟩
    · exact ⟨s.hw_recv_pt, s.ts_jump, s.permissive, .inl rfl, rfl⟩
  · exact ⟨s.hw_recv_pt, s.ts_jump, s.permissive, .inl rfl, rfl⟩

/-- The jumps of the timestamp, once a packet was delivered. A packet from before the last
one that was delivered goes no further. -/
def check_timestamp (s : RtpSession) (mp : Message) : RtpSession × Fates × Bool :=
  if s.first_packet_delivered then
    if RTP_TIMESTAMP_IS_NEWER_THAN mp.rtp.timestamp (s.rcv_last_ts + s.ts_jump) then
      let r := emit s.on_timestamp_jump s
      (r.1, r.2, true)
    else if RTP_TIMESTAMP_IS_STRICTLY_NEWER_THAN s.rcv_last_ts mp.rtp.timestamp then
      let r :=
        if RTP_TIMESTAMP_IS_STRICTLY_NEWER_THAN s.rcv_last_ts (mp.rtp.timestamp + s.ts_jump) then
          emit s.on_timestamp_jump s
        else (s, [])
      ({ r.1 with stats := { r.1.stats with outoftime := r.1.stats.outoftime + 1 } },
        r.2 ++ [(mp, .too_old)], false)
    else (s, [], true)
  else (s, [], true)

def queue_telephone_event (s : RtpSession) (mp : Message) : Except Fault (RtpSession × Fates) := do
  let r ← queue_packet s.tev_rq s.max_rq_size mp
  return ({ s with
      tev_rq := r.q
      stats := { s.stats with discarded := s.stats.discarded + r.discarded } }, r.freed)

def queue_media (s : RtpSession) (mp : Message) : Except Fault (RtpSession × Fates) := do
  let r ← queue_packet s.rq s.max_rq_size mp
  return ({ s with
      rq := r.q
      stats := { s.stats with discarded := s.stats.discarded + r.discarded } }, r.freed)

def count_received (s : RtpSession) (msgsize : Nat) : RtpSession :=
  { s with
    stats := { s.stats with
      packet_recv := s.stats.packet_recv + 1
      hw_recv := s.stats.hw_recv + msgsize }
    hwrcv_since_last_SR := s.hwrcv_since_last_SR + 1 }

/-- What comes after the SSRC lock. -/
def sort_packet (s : RtpSession) (mp : Message) : Except Fault (RtpSession × Fates) :=
  let s := update_statistics s mp.rtp.seq_number
  if (mp.rtp.paytype : Int) = s.telephone_events_pt then queue_telephone_event s mp
  else
    let s := check_payload_type s mp.rtp.paytype
    let (s, jumped, goes_on) := check_timestamp s mp
    if goes_on then do
      let (s, freed) ← queue_media s mp
      return (s, jumped ++ freed)
    else .ok (s, jumped)

def parse_packet (s : RtpSession) (mp : Message) : Except Fault (RtpSession × Fates) :=
  if mp.data.length < 4 * mp.rtp.cc then .ok (count_bad s, [(mp, .bad)])
  else
    let (s, flushed, goes_on) := lock_ssrc s mp
    if goes_on then do
      let (s, freed) ← sort_packet s mp
      return (s, flushed ++ freed)
    else .ok (s, flushed)

def rtp_session_rtp_parse (s : RtpSession) (d : List UInt8) : Except Fault (RtpSession × Fates) :=
  match rtp_message d with
  | none => .ok (count_bad s, [])
  | some mp =>
    if mp.rtp.version ≠ 2 then
      -- the length of a STUN packet stands where the sequence number would be
      if mp.rtp.seq_number.toNat + 20 = d.length ∧ s.eventqs = true then
        .ok ({ s with stun_events := s.stun_events ++ [d] }, [])
      else .ok (count_bad s, [])
    else parse_packet (count_received s d.length) mp

/-! ## The application asks for a packet -/

/-- What comes into the buffer of a datagram, unless the call fails. -/
def rtp_session_rtp_recv_abstract (s : RtpSession) (d : List UInt8) : Option (List UInt8) :=
  if d.length ≤ s.recv_buf_size then some d
  else if s.recv_cuts then some (d.take s.recv_buf_size) else none

/-- What the session parses of a datagram, if there is anything. -/
def received (s : RtpSession) (d : List UInt8) : Option (List UInt8) :=
  (rtp_session_rtp_recv_abstract s d).filter (0 < ·.length)

/-- The session after the socket was read, the packets that left it, the datagrams that the
socket gave away, and those that still wait there. -/
structure Received where
  session : RtpSession
  freed : Fates
  taken : List (List UInt8)
  waiting : List (List UInt8)

/-- Each datagram that waits in the socket. One of which nothing is received ends the loop. -/
def rtp_session_rtp_recv : RtpSession → List (List UInt8) → Except Fault Received
  | s, [] => .ok { session := s, freed := [], taken := [], waiting := [] }
  | s, d :: ds =>
    match received s d with
    | none => .ok { session := s, freed := [], taken := [d], waiting := ds }
    | some bytes => do
      let (s, freed) ← rtp_session_rtp_parse s bytes
      let r ← rtp_session_rtp_recv s ds
      return { r with freed := freed ++ r.freed, taken := d :: r.taken }

def count_delivered (s : RtpSession) (mp : Message) : RtpSession :=
  { s with stats := { s.stats with recv := s.stats.recv + msgdsize mp } }

def take_telephone_event (s : RtpSession) : RtpSession × Fates :=
  match s.tev_rq with
  | [] => (s, [])
  | mp :: q => (count_delivered { s with tev_rq := q } mp, [(mp, .telephone_event)])

/-- `ts` is the time asked for after the jitter compensation. -/
def take_due (s : RtpSession) (ts : UInt32) : Option Message × List Message × Fates :=
  if s.jitter_enabled then
    if s.permissive then rtp_getq_permissive s.rq ts else rtp_getq s.rq ts
  else getq s.rq

def take_media (s : RtpSession) (ts : UInt32) : RtpSession × Option Message × Fates :=
  match s.recv_sync, s.rq with
  | true, [] => (s, none, [])
  | true, first :: _ =>
    let s := { s with recv_sync := false, rcv_ssrc := first.rtp.ssrc }
    let (mp, rq, rejected) := take_due s ts
    ({ s with
        rq := rq
        stats := { s.stats with outoftime := s.stats.outoftime + rejected.length } },
      mp, rejected)
  | false, _ =>
    let (mp, rq, rejected) := take_due s ts
    ({ s with
        rq := rq
        stats := { s.stats with outoftime := s.stats.outoftime + rejected.length } },
      mp, rejected)

def notify_payload_type (s : RtpSession) (paytype : Nat) : RtpSession :=
  if s.rcv_pt ≠ paytype then payload_type_changed_notify s paytype else s

theorem notify_payload_type_eq (s : RtpSession) (paytype : Nat) :
    ∃ pt, notify_payload_type s paytype = { s with rcv_pt := pt } := by
  unfold notify_payload_type payload_type_changed_notify
  split
  · split
    · exact ⟨_, rfl⟩
    · exact ⟨s.rcv_pt, rfl⟩
  · exact ⟨s.rcv_pt, rfl⟩

def deliver (s : RtpSession) (mp : Option Message) : RtpSession × Fates :=
  match mp with
  | none => (s, [])
  | some mp =>
    ({ count_delivered (notify_payload_type s mp.rtp.paytype) mp with
        rcv_last_ts := mp.rtp.timestamp
        first_packet_delivered := true }, [(mp, .delivered)])

theorem deliver_some (s : RtpSession) (mp : Message) :
    ∃ pt, deliver s (some mp) =
      ({ count_delivered { s with rcv_pt := pt } mp with
          rcv_last_ts := mp.rtp.timestamp
          first_packet_delivered := true }, [(mp, .delivered)]) := by
  obtain ⟨pt, heq⟩ := notify_payload_type_eq s mp.rtp.paytype
  refine ⟨pt, ?_⟩
  unfold deliver
  dsimp only
  rw [heq]

/-- With the adaptive jitter buffer the packet gets the time it is delivered at. -/
def compensated (s : RtpSession) (corrective_slide : UInt32) (mp : Message) : Message :=
  if s.adaptive then
    { mp with rtp := { mp.rtp with timestamp := mp.rtp.timestamp + corrective_slide } }
  else mp

/-- The session with its socket, and what became of every packet. -/
structure Receiver where
  session : RtpSession
  socket : List (List UInt8)
  read : List (List UInt8)
  fates : Fates

/-- The socket is not read when the application asks again for the same time. -/
def read_socket (r : Receiver) (user_ts : UInt32) : Except Fault Receiver :=
  if r.session.recv_not_started = false ∧ user_ts = r.session.rcv_last_app_ts then .ok r
  else do
    let got ← rtp_session_rtp_recv
      { r.session with recv_not_started := false, rcv_last_app_ts := user_ts } r.socket
    return {
      session := got.session
      socket := got.waiting
      read := r.read ++ got.taken
      fates := r.fates ++ got.freed }

/-- `ts` and `corrective_slide` are what the jitter control makes of `user_ts`. -/
def rtp_session_recvm_with_ts (r : Receiver) (user_ts ts corrective_slide : UInt32) :
    Except Fault (Receiver × Option Message) := do
  let r ← read_socket r user_ts
  let (s, tev) := take_telephone_event r.session
  let (s, mp, rejected) := take_media s ts
  let (s, delivered) := deliver s mp
  return ({ r with session := s, fates := r.fates ++ tev ++ rejected ++ delivered },
    mp.map (compensated s corrective_slide))

/-- The call after the socket was read. -/
theorem recvm_eq {r r' : Receiver} {user_ts : UInt32} (h : read_socket r user_ts = .ok r')
    (ts corrective_slide : UInt32) :
    rtp_session_recvm_with_ts r user_ts ts corrective_slide =
      (let tev := take_telephone_event r'.session
       let media := take_media tev.1 ts
       let delivered := deliver media.1 media.2.1
       .ok ({ r' with
            session := delivered.1
            fates := r'.fates ++ tev.2 ++ media.2.2 ++ delivered.2 },
          media.2.1.map (compensated delivered.1 corrective_slide))) := by
  unfold rtp_session_recvm_with_ts
  rw [h, ok_bind]
  rfl

/-! ## Runs -/

inductive Act where
  | arrive (d : List UInt8)
  | recvm (user_ts ts corrective_slide : UInt32)
  | resync

def step (r : Receiver) : Act → Except Fault Receiver
  | .arrive d => .ok { r with socket := r.socket ++ [d] }
  | .recvm user_ts ts corrective_slide =>
    (rtp_session_recvm_with_ts r user_ts ts corrective_slide).map Prod.fst
  | .resync =>
    let (s, flushed) := rtp_session_resync r.session
    .ok { r with session := s, fates := r.fates ++ flushed }

/-- A session with nothing in its socket. -/
def receiver (s : RtpSession) : Receiver := { session := s, socket := [], read := [], fates := [] }

/-- The datagrams that come in a run. -/
def arrivals : List Act → List (List UInt8)
  | [] => []
  | .arrive d :: acts => d :: arrivals acts
  | _ :: acts => arrivals acts

end zonekey_mcu.rtp_session
