-- Video from the encoder of one side to the decoder of the other. The frames are packed,
-- numbered and sent; the network mixes the packets up within each tick; and the units that
-- the receiver unpacks are those of the frames.
import ZonekeyMcu.RtpTicks
import ZonekeyMcu.Rfc3984RoundTrip

namespace zonekey_mcu.rtp_session

open big_endian rfc3984

/-! ## The sender -/

/-- The sender filter with its session. -/
structure SenderData where
  snd_seq : UInt16
  snd_pt : Nat
  snd_ssrc : UInt32
  telephone_events_pt : Int
  rate : Nat
  /-- What the filter adds to the timestamps of the stream. -/
  tsoff : UInt32
  last_ts : UInt32
  last_sent_time : Int64
  last_stun_sent_time : Int64

def rtp_session_create_packet (s : SenderData) (payload : List UInt8) : Message :=
  { rtp :=
      { version := 2
        extbit := false
        cc := 0
        markbit := false
        paytype := s.snd_pt
        seq_number := s.snd_seq
        timestamp := 0
        ssrc := s.snd_ssrc }
    data := payload }

def rtp_session_sendm_with_ts (s : SenderData) (mp : Message) (timestamp : UInt32) :
    SenderData × Message :=
  let mp := { mp with rtp := { mp.rtp with timestamp := timestamp } }
  if s.telephone_events_pt = mp.rtp.paytype then
    ({ s with snd_seq := s.snd_seq + 1 },
      { mp with rtp := { mp.rtp with seq_number := s.snd_seq } })
  else ({ s with snd_seq := mp.rtp.seq_number + 1 }, mp)

/-- How far the stream and the ticker went since the last packet. -/
def diffts (s : SenderData) (packet_ts : UInt32) : Int32 := (packet_ts - s.last_ts).toInt32

def difftime_ts (s : SenderData) (time : UInt64) : Int32 :=
  ((time - s.last_sent_time.toUInt64) * UInt64.ofNat s.rate / 1000).toUInt32.toInt32

def curts (s : SenderData) (time : UInt64) : UInt32 :=
  (time * UInt64.ofNat s.rate / 1000).toUInt32

/-- The first packet gives the offset. A stream that leaves the clock of the ticker behind, or
runs away from it, by more than a fifth of a second gets a new one. -/
def adjusted_tsoff (s : SenderData) (time : UInt64) (packet_ts : UInt32) : UInt32 :=
  if s.last_sent_time = -1 ∨
      Int32.ofNat (s.rate / 5) < (diffts s packet_ts - difftime_ts s time).abs then
    curts s time - packet_ts
  else s.tsoff

def get_cur_timestamp (s : SenderData) (time : UInt64) (packet_ts : UInt32) :
    SenderData × UInt32 :=
  let tsoff := adjusted_tsoff s time packet_ts
  ({ s with tsoff := tsoff, last_sent_time := time.toInt64, last_ts := packet_ts },
    packet_ts + tsoff)

def send_message (s : SenderData) (time : UInt64) (im : Packet) : SenderData × Message :=
  let (s, timestamp) := get_cur_timestamp s time im.ts
  let header := rtp_session_create_packet s im.payload
  let header := { header with rtp := { header.rtp with markbit := im.marker } }
  rtp_session_sendm_with_ts s header timestamp

def send_messages : SenderData → UInt64 → List Packet → SenderData × List Message
  | s, _, [] => (s, [])
  | s, time, im :: ims =>
    let (s, sent) := send_message s time im
    let (s, rest) := send_messages s time ims
    (s, sent :: rest)

/-- A STUN request under the header of an RTP packet: its length is where the sequence number
is, its cookie where the timestamp is, and its random id where the SSRC and the data are. -/
def stun_message (tr_id : UInt32 × UInt64) : Message :=
  { rtp :=
      { version := 0
        extbit := false
        cc := 0
        markbit := false
        paytype := 1
        seq_number := 0
        timestamp := 1118048801
        ssrc := tr_id.1 }
    data := bytes_of 8 tr_id.2.toNat }

/-- As long as nothing was sent, a STUN request goes out every half second. It is sent as an
RTP packet, so it loses its cookie, and the session takes its length for a number. -/
def keep_open (s : SenderData) (time : UInt64) (tr_id : UInt32 × UInt64) :
    SenderData × List Message :=
  if s.last_sent_time = -1 then
    let s :=
      if s.last_stun_sent_time = -1 ∨ 500 ≤ time - s.last_stun_sent_time.toUInt64 then
        { s with last_stun_sent_time := time.toInt64 }
      else s
    if s.last_stun_sent_time.toUInt64 = time then
      let (s, sent) := rtp_session_sendm_with_ts s (stun_message tr_id) 0
      (s, [sent])
    else (s, [])
  else (s, [])

/-- The time of a tick, the messages of the input, and an id for a STUN request. -/
structure SenderTick where
  time : UInt64
  ims : List Packet
  tr_id : UInt32 × UInt64

def sender_process (s : SenderData) (t : SenderTick) : SenderData × List Message :=
  let (s, sent) := send_messages s t.time t.ims
  let (s, stun) := keep_open s t.time t.tr_id
  (s, sent ++ stun)

def sender_ticks : SenderData → List SenderTick → SenderData × List Message
  | s, [] => (s, [])
  | s, t :: rest =>
    let (s, sent) := sender_process s t
    let (s, sent') := sender_ticks s rest
    (s, sent ++ sent')

/-- The bytes of a packet, with the header in network order. -/
def rtp_datagram (mp : Message) : List UInt8 :=
  UInt8.ofNat (mp.rtp.version * 64 + mp.rtp.extbit.toNat * 16 + mp.rtp.cc) ::
    UInt8.ofNat (mp.rtp.markbit.toNat * 128 + mp.rtp.paytype) ::
    (bytes_of 2 mp.rtp.seq_number.toNat ++ (bytes_of 4 mp.rtp.timestamp.toNat ++
      (bytes_of 4 mp.rtp.ssrc.toNat ++ mp.data)))

/-! ## The receiver -/

/-- The size of the header extension in bytes, or -1. -/
def rtp_get_extheader (mp : Message) : Int :=
  if mp.rtp.extbit then
    let ext_header := mp.data.drop (4 * mp.rtp.cc)
    if 4 ≤ ext_header.length then
      let size := 4 * value_of ((ext_header.drop 2).take 2)
      if ext_header.length < 4 + size then -1 else size
    else -1
  else -1

/-- `none` where the packet ends inside its list of contributing sources. -/
def rtp_get_payload (mp : Message) : Option (List UInt8) :=
  if mp.data.length < 4 * mp.rtp.cc then none
  else
    let payload := mp.data.drop (4 * mp.rtp.cc)
    if mp.rtp.extbit ∧ 0 ≤ rtp_get_extheader mp then
      some (payload.drop (4 + (rtp_get_extheader mp).toNat))
    else some payload

/-- The message that the receiver filter puts out for a packet. -/
def output (mp : Message) : Option Packet :=
  (rtp_get_payload mp).map fun payload => ⟨payload, mp.rtp.timestamp, mp.rtp.markbit⟩

/-- The session of a video stream: no jitter buffer, and an event queue. -/
def video_session : RtpSession :=
  let s := { rtp_session_init with snd_profile := server_profile, rcv_profile := server_profile }
  { rtp_session_set_payload_type s 100 with
    adaptive := false
    jitter_enabled := false
    eventqs := true }

example : flushes_at_start video_session = false := by decide

theorem video_session_waits (ssrc : UInt32) : Waits (-1) 100 UDP_MAX_SIZE ssrc video_session :=
  ⟨⟨rfl, rfl, rfl, rfl, rfl, rfl, le_rfl, fun h => absurd h Bool.false_ne_true⟩, rfl, rfl, rfl⟩

/-! ## A packet over the wire -/

/-- The fields of the header fit into their bits. -/
structure Fits (mp : Message) : Prop where
  version : mp.rtp.version < 4
  cc : mp.rtp.cc < 16
  paytype : mp.rtp.paytype < 128

theorem first_byte {version cc : Nat} (hversion : version < 4) (hcc : cc < 16) (extbit : Bool) :
    ((UInt8.ofNat (version * 64 + extbit.toNat * 16 + cc)) >>> 6).toNat = version ∧
      (((UInt8.ofNat (version * 64 + extbit.toNat * 16 + cc)) >>> 4) &&& 1 == 1) = extbit ∧
      ((UInt8.ofNat (version * 64 + extbit.toNat * 16 + cc)) &&& 15).toNat = cc := by
  have hall : ∀ version : Fin 4, ∀ extbit : Bool, ∀ cc : Fin 16,
      ((UInt8.ofNat (version.val * 64 + extbit.toNat * 16 + cc.val)) >>> 6).toNat =
          version.val ∧
        (((UInt8.ofNat (version.val * 64 + extbit.toNat * 16 + cc.val)) >>> 4) &&& 1 == 1) =
          extbit ∧
        ((UInt8.ofNat (version.val * 64 + extbit.toNat * 16 + cc.val)) &&& 15).toNat = cc.val := by
    decide
  exact hall ⟨version, hversion⟩ extbit ⟨cc, hcc⟩

theorem second_byte {paytype : Nat} (hpaytype : paytype < 128) (markbit : Bool) :
    ((UInt8.ofNat (markbit.toNat * 128 + paytype)) >>> 7 == 1) = markbit ∧
      ((UInt8.ofNat (markbit.toNat * 128 + paytype)) &&& 127).toNat = paytype := by
  have hall : ∀ markbit : Bool, ∀ paytype : Fin 128,
      ((UInt8.ofNat (markbit.toNat * 128 + paytype.val)) >>> 7 == 1) = markbit ∧
        ((UInt8.ofNat (markbit.toNat * 128 + paytype.val)) &&& 127).toNat = paytype.val := by
    decide
  exact hall markbit ⟨paytype, hpaytype⟩

/-- A message comes out of its datagram as it went in. -/
theorem message_of_datagram {mp : Message} (h : Fits mp) :
    rtp_message (rtp_datagram mp) = some mp := by
  obtain ⟨hversion, hext, hcc⟩ := first_byte h.version h.cc mp.rtp.extbit
  obtain ⟨hmark, hpaytype⟩ := second_byte h.paytype mp.rtp.markbit
  have hseq : UInt16.ofNat (value_of (bytes_of 2 mp.rtp.seq_number.toNat)) = mp.rtp.seq_number := by
    rw [value_of_bytes_of_lt mp.rtp.seq_number.toNat_lt, UInt16.ofNat_toNat]
  have hts : UInt32.ofNat (value_of (bytes_of 4 mp.rtp.timestamp.toNat)) = mp.rtp.timestamp := by
    rw [value_of_bytes_of_lt mp.rtp.timestamp.toNat_lt, UInt32.ofNat_toNat]
  have hssrc : UInt32.ofNat (value_of (bytes_of 4 mp.rtp.ssrc.toNat)) = mp.rtp.ssrc := by
    rw [value_of_bytes_of_lt mp.rtp.ssrc.toNat_lt, UInt32.ofNat_toNat]
  unfold rtp_datagram
  simp only [bytes_of, List.cons_append, List.nil_append] at hseq hts hssrc ⊢
  unfold rtp_message
  dsimp only
  rw [hversion, hext, hcc, hmark, hpaytype, hseq, hts, hssrc]

theorem packet_of_datagram {mp : Message} (h : Fits mp) (hversion : mp.rtp.version = 2) :
    rtp_packet (rtp_datagram mp) = some mp := by
  unfold rtp_packet
  rw [message_of_datagram h]
  exact if_pos (by simpa using hversion)

/-! ## The packets of a stream -/

/-- The packet that the sender makes of a message, at the time of the message. -/
def packet_of (snd_pt : Nat) (snd_ssrc : UInt32) (seq : UInt16) (im : Packet) : Message :=
  { rtp :=
      { version := 2
        extbit := false
        cc := 0
        markbit := im.marker
        paytype := snd_pt
        seq_number := seq
        timestamp := im.ts
        ssrc := snd_ssrc }
    data := im.payload }

def packets_of (snd_pt : Nat) (snd_ssrc : UInt32) : UInt16 → List Packet → List Message
  | _, [] => []
  | seq, im :: ims => packet_of snd_pt snd_ssrc seq im :: packets_of snd_pt snd_ssrc (seq + 1) ims

/-- A message without its time. -/
def unstamped (im : Packet) : List UInt8 × Bool := (im.payload, im.marker)

section

variable {s : SenderData} {time : UInt64} {snd_pt : Nat} {snd_ssrc : UInt32} {seq : UInt16}

/-- Whatever the payload type, the packets are numbered one after the other. -/
theorem send_message_eq (s : SenderData) (time : UInt64) (im : Packet) :
    send_message s time im =
      ({ s with
          snd_seq := s.snd_seq + 1
          tsoff := adjusted_tsoff s time im.ts
          last_sent_time := time.toInt64
          last_ts := im.ts },
        packet_of s.snd_pt s.snd_ssrc s.snd_seq
          { im with ts := im.ts + adjusted_tsoff s time im.ts }) := by
  unfold send_message get_cur_timestamp rtp_session_sendm_with_ts
  dsimp only
  split <;> rfl

/-- The messages of a tick keep all but their times. -/
theorem send_messages_eq (s : SenderData) (time : UInt64) (ims : List Packet) :
    ∃ s' ims', send_messages s time ims = (s', packets_of s.snd_pt s.snd_ssrc s.snd_seq ims') ∧
      ims'.map unstamped = ims.map unstamped ∧
      (s'.snd_pt = s.snd_pt ∧ s'.snd_ssrc = s.snd_ssrc) ∧
      s'.snd_seq = s.snd_seq + UInt16.ofNat ims'.length ∧
      (ims = [] ∧ s' = s ∨ s'.last_sent_time = time.toInt64) := by
  induction ims generalizing s with
  | nil => exact ⟨s, [], rfl, rfl, ⟨rfl, rfl⟩, (UInt16.add_zero _).symm, .inl ⟨rfl, rfl⟩⟩
  | cons im ims ih =>
    have hsend := send_message_eq s time im
    obtain ⟨s', ims', hrest, hsame, hkept, hseq, hlast⟩ := ih (send_message s time im).1
    rw [hsend] at hrest hkept hseq hlast
    refine ⟨s', { im with ts := im.ts + adjusted_tsoff s time im.ts } :: ims', ?_, ?_, hkept, ?_,
      .inr ?_⟩
    · unfold send_messages
      rw [hsend]
      dsimp only
      rw [hrest]
      rfl
    · rw [List.map_cons, List.map_cons, hsame]
      rfl
    · rw [hseq, List.length_cons, UInt16.ofNat_add, UInt16.add_comm (UInt16.ofNat ims'.length),
        ← UInt16.add_assoc]
      rfl
    · rcases hlast with ⟨-, rfl⟩ | hlast
      · rfl
      · exact hlast

theorem sendm_eq (s : SenderData) (mp : Message) (timestamp : UInt32) :
    ∃ seq seq', rtp_session_sendm_with_ts s mp timestamp =
      ({ s with snd_seq := seq },
        { mp with rtp := { mp.rtp with timestamp := timestamp, seq_number := seq' } }) := by
  unfold rtp_session_sendm_with_ts
  dsimp only
  split
  · exact ⟨_, _, rfl⟩
  · exact ⟨_, mp.rtp.seq_number, rfl⟩

/-- Once a packet was sent, no STUN request goes out; before, only STUN requests do. -/
theorem keep_open_eq (s : SenderData) (time : UInt64) (tr_id : UInt32 × UInt64) :
    (s.last_sent_time ≠ -1 ∧ keep_open s time tr_id = (s, [])) ∨
      s.last_sent_time = -1 ∧ (keep_open s time tr_id).1.last_sent_time = -1 ∧
        (keep_open s time tr_id).1.snd_pt = s.snd_pt ∧
        (keep_open s time tr_id).1.snd_ssrc = s.snd_ssrc ∧
        ∀ mp ∈ (keep_open s time tr_id).2, mp.rtp.version ≠ 2 := by
  by_cases hsent : s.last_sent_time = -1
  · refine .inr ⟨hsent, ?_⟩
    unfold keep_open
    rw [if_pos hsent]
    have hstun : ∃ last, (if s.last_stun_sent_time = -1 ∨
        500 ≤ time - s.last_stun_sent_time.toUInt64 then
          { s with last_stun_sent_time := time.toInt64 } else s) =
        { s with last_stun_sent_time := last } := by
      split
      · exact ⟨_, rfl⟩
      · exact ⟨s.last_stun_sent_time, rfl⟩
    obtain ⟨last, hstun⟩ := hstun
    rw [hstun]
    dsimp only
    split
    · obtain ⟨seq, seq', hsend⟩ :=
        sendm_eq { s with last_stun_sent_time := last } (stun_message tr_id) 0
      rw [hsend]
      exact ⟨hsent, rfl, rfl, List.forall_mem_singleton.mpr (Nat.zero_ne_add_one 1)⟩
    · exact ⟨hsent, rfl, rfl, fun mp hmp => absurd hmp List.not_mem_nil⟩
  · refine .inl ⟨hsent, ?_⟩
    unfold keep_open
    exact if_neg hsent

theorem packets_of_append (ims ims' : List Packet) :
    packets_of snd_pt snd_ssrc seq (ims ++ ims') =
      packets_of snd_pt snd_ssrc seq ims ++
        packets_of snd_pt snd_ssrc (seq + UInt16.ofNat ims.length) ims' := by
  induction ims generalizing seq with
  | nil =>
    rw [List.nil_append, List.length_nil, show UInt16.ofNat 0 = 0 from rfl, UInt16.add_zero]
    rfl
  | cons im ims ih =>
    rw [List.cons_append, packets_of, packets_of, ih, List.length_cons, UInt16.add_assoc,
      show 1 + UInt16.ofNat ims.length = UInt16.ofNat (ims.length + 1) by
        rw [UInt16.ofNat_add, UInt16.add_comm]; rfl]
    rfl

theorem packets_of_mem {ims : List Packet} {mp : Message}
    (h : mp ∈ packets_of snd_pt snd_ssrc seq ims) :
    ∃ seq', ∃ im ∈ ims, mp = packet_of snd_pt snd_ssrc seq' im := by
  induction ims generalizing seq with
  | nil => exact absurd h List.not_mem_nil
  | cons im ims ih =>
    rcases List.mem_cons.mp h with rfl | h
    · exact ⟨seq, im, List.mem_cons_self, rfl⟩
    · obtain ⟨seq', im', him', hmp⟩ := ih h
      exact ⟨seq', im', List.mem_cons_of_mem im him', hmp⟩

theorem packets_of_numbered (ims : List Packet) :
    NumberedFrom seq (packets_of snd_pt snd_ssrc seq ims) := by
  induction ims generalizing seq with
  | nil => trivial
  | cons im ims ih => exact ⟨rfl, ih⟩

/-- Over all ticks the packets are numbered one after the other, from the number that the last
STUN request left. -/
theorem sender_ticks_eq {sends : List SenderTick} (hclock : ∀ t ∈ sends, t.time.toInt64 ≠ -1) :
    ∀ s : SenderData, ∃ seq ims', ims'.map unstamped = (sends.flatMap (·.ims)).map unstamped ∧
      ((sender_ticks s sends).2.filter fun mp => mp.rtp.version = 2) =
        packets_of s.snd_pt s.snd_ssrc seq ims' ∧
      (s.last_sent_time ≠ -1 → seq = s.snd_seq) := by
  induction sends with
  | nil => exact fun s => ⟨s.snd_seq, [], rfl, rfl, fun _ => rfl⟩
  | cons t sends ih =>
    intro s
    obtain ⟨s₁, ims₁, hsend, hsame, ⟨hpt, hssrc⟩, hseq, hlast⟩ := send_messages_eq s t.time t.ims
    have hall : (sender_ticks s (t :: sends)).2 = packets_of s.snd_pt s.snd_ssrc s.snd_seq ims₁ ++
        (keep_open s₁ t.time t.tr_id).2 ++
        (sender_ticks (keep_open s₁ t.time t.tr_id).1 sends).2 := by
      rw [sender_ticks]
      unfold sender_process
      rw [hsend]
    have hversion : (packets_of s.snd_pt s.snd_ssrc s.snd_seq ims₁).filter
        (fun mp => mp.rtp.version = 2) = packets_of s.snd_pt s.snd_ssrc s.snd_seq ims₁ := by
      refine List.filter_eq_self.mpr fun mp hmp => ?_
      obtain ⟨seq', im, -, rfl⟩ := packets_of_mem hmp
      rfl
    obtain ⟨seq, ims', hsame', hrest, hnext⟩ :=
      ih (fun t' ht' => hclock t' (List.mem_cons_of_mem t ht')) (keep_open s₁ t.time t.tr_id).1
    rcases keep_open_eq s₁ t.time t.tr_id with ⟨hsent, hopen⟩ | ⟨hnone, hlast', hpt', hssrc', hstun⟩
    · rw [hopen] at hall hrest hnext
      refine ⟨s.snd_seq, ims₁ ++ ims', ?_, ?_, fun _ => rfl⟩
      · rw [List.map_append, hsame, hsame', List.flatMap_cons, List.map_append]
      · rw [hall, List.append_nil, List.filter_append, hversion, hrest, packets_of_append,
          hnext hsent, hpt, hssrc, hseq]
    · -- nothing was sent before, nor in this tick
      obtain ⟨hims, rfl⟩ : t.ims = [] ∧ s₁ = s := by
        refine hlast.resolve_right fun htime => ?_
        exact hclock t List.mem_cons_self (htime.symm.trans hnone)
      rw [hims] at hsame
      rw [List.map_eq_nil_iff.mp hsame] at hall
      refine ⟨seq, ims', ?_, ?_, fun hsent => absurd hnone hsent⟩
      · rw [hsame', List.flatMap_cons, hims, List.nil_append]
      · have hforeign : (keep_open s₁ t.time t.tr_id).2.filter (fun mp => mp.rtp.version = 2) =
            [] := List.filter_eq_nil_iff.mpr fun mp hmp => by simpa using hstun mp hmp
        rw [hall, List.filter_append, List.filter_append, hforeign, hrest, hpt', hssrc']
        rfl

theorem packet_fits (seq : UInt16) (im : Packet) (hpt : snd_pt < 128) :
    Fits (packet_of snd_pt snd_ssrc seq im) :=
  ⟨Nat.lt_of_sub_eq_succ rfl, Nat.succ_pos 15, hpt⟩

theorem output_packet (seq : UInt16) (im : Packet) :
    output (packet_of snd_pt snd_ssrc seq im) = some im := by
  unfold output rtp_get_payload
  rw [if_neg (by simp [packet_of])]
  rfl

/-- The receiver filter puts out the messages that the packets were made of. -/
theorem packets_of_output (ims : List Packet) :
    (packets_of snd_pt snd_ssrc seq ims).filterMap output = ims := by
  induction ims generalizing seq with
  | nil => rfl
  | cons im ims ih =>
    rw [packets_of, List.filterMap_cons_some (output_packet seq im), ih]

end

/-! ## The units of a stream -/

section

variable {cur : Option (List UInt8)} {packets : List Packet} {nals : List (List UInt8)}

theorem carries_nonempty (h : Carries cur packets nals) : ∀ im ∈ packets, im.payload ≠ [] := by
  have hunit : ∀ m : List UInt8, nal_unit m → m ≠ [] := by
    rintro m hm rfl
    exact hm
  have hfragment : ∀ {m body : List UInt8} {start fin : Bool} {h : UInt8},
      Fragment m start fin h body → m ≠ [] := by
    rintro m body start fin h ⟨indicator, fu, rfl, -⟩
    exact List.cons_ne_nil _ _
  induction h with
  | done => exact fun im him => absurd him List.not_mem_nil
  | single him _ ih => exact List.forall_mem_cons.mpr ⟨hunit _ him, ih⟩
  | stapa him _ ih =>
    obtain ⟨h, hm, -⟩ := him.shape
    exact List.forall_mem_cons.mpr ⟨by rw [hm]; exact List.cons_ne_nil _ _, ih⟩
  | start him _ ih => exact List.forall_mem_cons.mpr ⟨hfragment him, ih⟩
  | middle him _ ih => exact List.forall_mem_cons.mpr ⟨hfragment him, ih⟩
  | last him _ ih => exact List.forall_mem_cons.mpr ⟨hfragment him, ih⟩

theorem unstamped_cons {im : Packet} {packets' : List Packet}
    (h : packets'.map unstamped = (im :: packets).map unstamped) :
    ∃ im' rest, packets' = im' :: rest ∧ im'.payload = im.payload ∧
      rest.map unstamped = packets.map unstamped := by
  obtain ⟨im', rest, rfl, him, hrest⟩ := List.map_eq_cons_iff.mp h
  exact ⟨im', rest, rfl, congrArg Prod.fst him, hrest⟩

/-- The timestamps carry nothing. -/
theorem carries_unstamped (h : Carries cur packets nals) :
    ∀ {packets' : List Packet}, packets'.map unstamped = packets.map unstamped →
      Carries cur packets' nals := by
  induction h with
  | done =>
    intro packets' heq
    rw [List.map_eq_nil_iff.mp heq]
    exact .done
  | single him _ ih =>
    intro packets' heq
    obtain ⟨im', rest, rfl, hpayload, hrest⟩ := unstamped_cons heq
    rw [← hpayload] at him ⊢
    exact .single him (ih hrest)
  | stapa him _ ih =>
    intro packets' heq
    obtain ⟨im', rest, rfl, hpayload, hrest⟩ := unstamped_cons heq
    rw [← hpayload] at him
    exact .stapa him (ih hrest)
  | start him _ ih =>
    intro packets' heq
    obtain ⟨im', rest, rfl, hpayload, hrest⟩ := unstamped_cons heq
    rw [← hpayload] at him
    exact .start him (ih hrest)
  | middle him _ ih =>
    intro packets' heq
    obtain ⟨im', rest, rfl, hpayload, hrest⟩ := unstamped_cons heq
    rw [← hpayload] at him
    exact .middle him (ih hrest)
  | last him _ ih =>
    intro packets' heq
    obtain ⟨im', rest, rfl, hpayload, hrest⟩ := unstamped_cons heq
    rw [← hpayload] at him
    exact .last him (ih hrest)

theorem ends_unstamped {marker : Bool} (h : Ends marker packets) {packets' : List Packet}
    (heq : packets'.map unstamped = packets.map unstamped) : Ends marker packets' := by
  obtain ⟨front, last, rfl, hfront, hlast⟩ := h
  rw [List.map_append] at heq
  obtain ⟨front', last', rfl, hfront', hlast'⟩ := List.map_eq_append_iff.mp heq
  obtain ⟨im', rfl, him'⟩ := List.map_eq_singleton_iff.mp hlast'
  refine ⟨front', im', rfl, fun im him => ?_, (congrArg Prod.snd him').trans hlast⟩
  have hmem : unstamped im ∈ front.map unstamped := by
    rw [← hfront']
    exact List.mem_map_of_mem him
  obtain ⟨im₀, him₀, hsame⟩ := List.mem_map.mp hmem
  exact (congrArg Prod.snd hsame).symm.trans (hfront im₀ him₀)

end

theorem unpack_all_append (rx : Rfc3984Context) (packets packets' : List Packet) :
    unpack_all rx (packets ++ packets') = (do
      let (rx, out) ← unpack_all rx packets
      let (rx, out') ← unpack_all rx packets'
      return (rx, out ++ out')) := by
  induction packets generalizing rx with
  | nil =>
    rw [List.nil_append]
    show _ = (unpack_all rx packets' >>= _)
    cases unpack_all rx packets' with
    | error e => rfl
    | ok r => rfl
  | cons im packets ih =>
    rw [List.cons_append, unpack_all, unpack_all]
    cases rfc3984_unpack rx im with
    | error e => rfl
    | ok r =>
      rw [ok_bind, ok_bind]
      dsimp only
      rw [ih]
      cases unpack_all r.1 packets with
      | error e => rfl
      | ok r' =>
        rw [ok_bind, ok_bind]
        show (unpack_all r'.1 packets' >>= _) >>= _ = (unpack_all r'.1 packets' >>= _)
        cases unpack_all r'.1 packets' with
        | error e => rfl
        | ok r'' => exact congrArg (fun l => Except.ok (r''.1, l)) (List.append_assoc _ _ _).symm

/-- The frames of an encoder, each with its timestamp, one after the other. -/
def pack_frames (ctx : Rfc3984Context) :
    List (UInt32 × List (List UInt8)) → Except Fault (List Packet)
  | [] => .ok []
  | (ts, naluq) :: frames => do
    let packets ← rfc3984_pack ctx naluq ts
    let rest ← pack_frames ctx frames
    return packets ++ rest

/-- The packets of all frames can be made, are not too long, and give the units of all frames,
whatever times they come with. -/
theorem packed_frames_unpack {ctx : Rfc3984Context} (hmode : ctx.mode = 1) (h3 : 3 ≤ ctx.maxsz)
    (hmax : ctx.maxsz ≤ 65535) (frames : List (UInt32 × List (List UInt8)))
    (hnals : ∀ frame ∈ frames, ∀ nal ∈ frame.2, nal_unit nal) :
    ∃ packets, pack_frames ctx frames = .ok packets ∧
      (∀ im ∈ packets, im.payload ≠ [] ∧ (im.payload.length : Int) ≤ ctx.maxsz) ∧
      ∀ packets' : List Packet, packets'.map unstamped = packets.map unstamped →
        ∀ rx : Rfc3984Context, rx.q = [] → rx.m = none →
          ∃ rx', unpack_all rx packets' = .ok (rx', frames.flatMap (·.2)) ∧
            rx'.q = [] ∧ rx'.m = none := by
  have hstap : ctx.stap_a_allowed = true → ctx.maxsz ≤ 65535 := fun _ => hmax
  induction frames with
  | nil =>
    refine ⟨[], rfl, fun im him => absurd him List.not_mem_nil, fun packets' heq rx hq hm => ?_⟩
    rw [List.map_eq_nil_iff.mp heq]
    exact ⟨rx, rfl, hq, hm⟩
  | cons frame frames ih =>
    obtain ⟨ts, naluq⟩ := frame
    have hhere := hnals _ List.mem_cons_self
    obtain ⟨rest, hrest, hfit, hunpack⟩ := ih fun f hf => hnals f (List.mem_cons_of_mem _ hf)
    obtain ⟨packets, hok, hsizes⟩ := pack_mode_1_fits ts h3 hstap hhere .none
    obtain ⟨hcarries, hends⟩ := pack_mode_1_carries hstap hhere .none hok
    have hpack : rfc3984_pack ctx naluq ts = .ok packets := by
      unfold rfc3984_pack
      rw [if_neg (by omega), if_pos hmode]
      exact hok
    refine ⟨packets ++ rest, ?_, ?_, ?_⟩
    · rw [pack_frames, hpack, ok_bind, hrest, ok_bind]
      rfl
    · intro im him
      rcases List.mem_append.mp him with him | him
      · exact ⟨carries_nonempty hcarries im him, (hsizes im him).1⟩
      · exact hfit im him
    · intro packets' heq rx hq hm
      rw [List.map_append] at heq
      obtain ⟨packets₁, rest₁, rfl, hsame, hsame'⟩ := List.map_eq_append_iff.mp heq
      obtain ⟨rx₁, out, hall, hm₁, hout, hempty⟩ :=
        carried_units_received (carries_unstamped hcarries hsame) rx hm
      have hq₁ : rx₁.q = [] := by
        cases naluq with
        | nil =>
          cases hok
          rw [List.map_eq_nil_iff.mp hsame] at hall
          cases hall
          exact hq
        | cons m naluq =>
          exact hempty (ends_unstamped (hends (.inr (List.cons_ne_nil _ _))) hsame)
      rw [hq₁, hq, List.append_nil, List.nil_append, List.nil_append] at hout
      obtain ⟨rx', hrestall, hq', hm'⟩ := hunpack rest₁ hsame' rx₁ hq₁ hm₁
      refine ⟨rx', ?_, hq', hm'⟩
      rw [unpack_all_append, hall, ok_bind]
      dsimp only
      rw [hrestall, ok_bind, hout]
      rfl

/-! ## From end to end -/

/-- In a tick each of the packets comes at least once, as it was sent. What else comes is no
RTP packet, and fits into the buffer. -/
structure BroughtBy (ds : List (List UInt8)) (mps : List Message) : Prop where
  all : ∀ mp ∈ mps, rtp_datagram mp ∈ ds
  only : ∀ d ∈ ds, d ∈ mps.map rtp_datagram ∨
    (rtp_packet d = none ∧ 0 < d.length ∧ d.length ≤ UDP_MAX_SIZE)

theorem length_rtp_datagram (mp : Message) :
    (rtp_datagram mp).length = RTP_FIXED_HEADER_SIZE + mp.data.length := by
  unfold rtp_datagram
  simp only [List.length_cons, List.length_append, length_bytes_of]
  unfold RTP_FIXED_HEADER_SIZE
  omega

/-- The STUN requests of the sender may come in between. -/
theorem stun_between (s : SenderData) (tr_id : UInt32 × UInt64) :
    rtp_packet (rtp_datagram (rtp_session_sendm_with_ts s (stun_message tr_id) 0).2) = none ∧
      (rtp_datagram (rtp_session_sendm_with_ts s (stun_message tr_id) 0).2).length = 20 := by
  obtain ⟨seq, seq', hsend⟩ := sendm_eq s (stun_message tr_id) 0
  rw [hsend]
  constructor
  · unfold rtp_packet
    rw [message_of_datagram ⟨Nat.succ_pos 3, Nat.succ_pos 15, Nat.one_lt_succ_succ 126⟩]
    rfl
  · rw [length_rtp_datagram]
    exact congrArg (RTP_FIXED_HEADER_SIZE + ·) (length_bytes_of 8 tr_id.2.toNat)

theorem brings_packets {ds : List (List UInt8)} {mps : List Message}
    (h : BroughtBy ds mps) (hfits : ∀ mp ∈ mps, Fits mp ∧ mp.rtp.version = 2)
    (hsize : ∀ mp ∈ mps, RTP_FIXED_HEADER_SIZE + mp.data.length ≤ UDP_MAX_SIZE) :
    Brings UDP_MAX_SIZE ds mps := by
  refine ⟨fun d hd => ?_, fun mp => ⟨fun hmp => ?_, fun hmp => ?_⟩⟩
  · rcases h.only d hd with hd | ⟨-, hpos, hd⟩
    · obtain ⟨mp, hmp, rfl⟩ := List.mem_map.mp hd
      rw [length_rtp_datagram]
      exact ⟨Nat.add_pos_left (by decide) _, hsize mp hmp⟩
    · exact ⟨hpos, hd⟩
  · obtain ⟨d, hd, hpacket⟩ := List.mem_filterMap.mp hmp
    rcases h.only d hd with hd | ⟨hnone, -⟩
    · obtain ⟨mp', hmp', rfl⟩ := List.mem_map.mp hd
      rw [packet_of_datagram (hfits mp' hmp').1 (hfits mp' hmp').2] at hpacket
      cases hpacket
      exact hmp'
    · rw [hnone] at hpacket
      cases hpacket
  · exact List.mem_filterMap.mpr ⟨_, h.all mp hmp,
      packet_of_datagram (hfits mp hmp).1 (hfits mp hmp).2⟩

/-- The frames of a video stream come out of the other end as they went in: packed, sent and
mixed up between the ticks, but with no packet lost, never more than 100 in a tick, and none
that the clock of the sender made older than the last of a tick before. -/
theorem frames_survive_the_network (ctx : Rfc3984Context) (hmode : ctx.mode = 1)
    (h3 : 3 ≤ ctx.maxsz) (hmax : RTP_FIXED_HEADER_SIZE + ctx.maxsz ≤ UDP_MAX_SIZE)
    (s : SenderData) (hpt : s.snd_pt < 128) (frames : List (UInt32 × List (List UInt8)))
    (hnals : ∀ frame ∈ frames, ∀ nal ∈ frame.2, nal_unit nal) (rate : Nat) (rx : Rfc3984Context)
    (hq : rx.q = []) (hm : rx.m = none) :
    ∃ packets, pack_frames ctx frames = .ok packets ∧
      ∀ sends : List SenderTick, sends.flatMap (·.ims) = packets →
        (∀ t ∈ sends, t.time.toInt64 ≠ -1) →
        ∀ rounds : List (Tick × List Message),
          rounds.flatMap (·.2) = (sender_ticks s sends).2.filter (fun mp => mp.rtp.version = 2) →
          (∀ x ∈ rounds, x.2.length ≤ 100 ∧ BroughtBy x.1.ds x.2) →
          (rounds.map fun x => receiver_timestamp rate x.1.time).IsChain (· ≠ ·) →
          Paced none (rounds.map (·.2)) →
          ∃ received rx',
            (ticks (receiver_filter video_session rate) (rounds.map (·.1))).map Prod.snd =
              .ok received ∧
            unpack_all rx (received.filterMap output) = .ok (rx', frames.flatMap (·.2)) := by
  unfold RTP_FIXED_HEADER_SIZE UDP_MAX_SIZE at hmax
  obtain ⟨packets, hpack, hfit, hunpack⟩ :=
    packed_frames_unpack hmode h3 (by omega) frames hnals
  refine ⟨packets, hpack, fun sends hims hclock rounds hsent hbrings htimes hpaced => ?_⟩
  obtain ⟨seq, ims, hsame, hpackets, -⟩ := sender_ticks_eq hclock s
  rw [hims] at hsame
  rw [hpackets] at hsent
  have hcarried : ∀ im ∈ ims, im.payload ≠ [] ∧ (im.payload.length : Int) ≤ ctx.maxsz := by
    intro im him
    have hmem : unstamped im ∈ packets.map unstamped := by
      rw [← hsame]
      exact List.mem_map_of_mem him
    obtain ⟨im', him', heq⟩ := List.mem_map.mp hmem
    have hpayload : im'.payload = im.payload := congrArg Prod.fst heq
    rw [← hpayload]
    exact hfit im' him'
  have hmem : ∀ x ∈ rounds, ∀ mp ∈ x.2, ∃ seq, ∃ im ∈ ims,
      mp = packet_of s.snd_pt s.snd_ssrc seq im := by
    intro x hx mp hmp
    have hsends : mp ∈ packets_of s.snd_pt s.snd_ssrc seq ims := by
      rw [← hsent]
      exact List.mem_flatMap.mpr ⟨x, hx, hmp⟩
    exact packets_of_mem hsends
  have hbound : (100 : Nat) < 32768 := by decide
  obtain ⟨d, hticks⟩ := ticks_from_start hbound (video_session_waits s.snd_ssrc) rounds
    (by rw [hsent]; exact packets_of_numbered ims)
    (by
      intro mp hmp
      rw [hsent] at hmp
      obtain ⟨seq, im, him, rfl⟩ := packets_of_mem hmp
      refine ⟨by simp only [packet_of]; omega, rfl, ?_⟩
      exact List.length_pos_iff.mpr (hcarried im him).1)
    (by
      intro x hx
      obtain ⟨hlen, hover⟩ := hbrings x hx
      refine ⟨hlen, brings_packets hover (fun mp hmp => ?_) fun mp hmp => ?_⟩
      · obtain ⟨seq, im, -, rfl⟩ := hmem x hx mp hmp
        exact ⟨packet_fits seq im hpt, rfl⟩
      · obtain ⟨seq, im, him, rfl⟩ := hmem x hx mp hmp
        have hsize := (hcarried im him).2
        show 12 + im.payload.length ≤ 1500
        omega)
    htimes hpaced
  obtain ⟨rx', hall, -, -⟩ := hunpack ims hsame rx hq hm
  refine ⟨rounds.flatMap (·.2), rx', ?_, ?_⟩
  · rw [ticks_starting (by decide), hticks]
    rfl
  · rw [hsent, packets_of_output]
    exact hall

/-- A small unit and one over the limit, whose packets come last first. -/
theorem frames_survive_the_network_example :
    ∃ packets, pack_frames { rfc3984_init 4 with mode := 1 }
        [(9, [[0x68], [0x65, 1, 2, 3, 4]])] = .ok packets ∧
      ∃ received rx', (ticks (receiver_filter video_session 90000)
          [⟨((sender_ticks ⟨65534, 100, 7, -1, 90000, 0, 0, -1, -1⟩
              [⟨40, packets, (5, 6)⟩]).2.map rtp_datagram).reverse, 0, 0, 0⟩]).map Prod.snd =
            .ok received ∧
        unpack_all (rfc3984_init 4) (received.filterMap output) =
          .ok (rx', [[0x68], [0x65, 1, 2, 3, 4]]) := by
  obtain ⟨packets, hpack, hrounds⟩ := frames_survive_the_network
    { rfc3984_init 4 with mode := 1 } rfl (by decide) (by decide)
    ⟨65534, 100, 7, -1, 90000, 0, 0, -1, -1⟩ (by decide) [(9, [[0x68], [0x65, 1, 2, 3, 4]])]
    (by simp [nal_unit]; decide) 90000 (rfc3984_init 4) rfl rfl
  have hsent : (sender_ticks ⟨65534, 100, 7, -1, 90000, 0, 0, -1, -1⟩
      [⟨40, packets, (5, 6)⟩]).2.filter (fun mp => mp.rtp.version = 2) =
        (sender_ticks ⟨65534, 100, 7, -1, 90000, 0, 0, -1, -1⟩ [⟨40, packets, (5, 6)⟩]).2 := by
    cases hpack
    decide
  have hlength : (sender_ticks ⟨65534, 100, 7, -1, 90000, 0, 0, -1, -1⟩
      [⟨40, packets, (5, 6)⟩]).2.length = 4 := by
    cases hpack
    rfl
  have hclock : (40 : UInt64).toInt64 ≠ -1 := by decide
  refine ⟨packets, hpack, hrounds [⟨40, packets, (5, 6)⟩] (List.append_nil _)
    (List.forall_mem_singleton.mpr hclock) [(⟨_, 0, 0, 0⟩, _)]
    ((List.append_nil _).trans hsent.symm) ?_ (.singleton _)
    ⟨fun ts h => (by cases h), trivial⟩⟩
  intro x hx
  rw [List.mem_singleton.mp hx]
  refine ⟨by rw [hlength]; decide, fun mp hmp => ?_, fun d hd => .inl (List.mem_reverse.mp hd)⟩
  exact List.mem_reverse.mpr (List.mem_map_of_mem hmp)

end zonekey_mcu.rtp_session
