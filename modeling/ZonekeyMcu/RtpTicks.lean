-- The RTP receiver filter takes every packet that is due in each tick of the ticker. In a
-- session without a jitter buffer that is all of them, so what the network mixes up between
-- two ticks comes out of the filter in order, once. A filter that starts throws away what
-- waits in the socket, unless the session expects video or a type that it does not know.
import ZonekeyMcu.RtpOrder

namespace zonekey_mcu.rtp_session

open serial_numbers reorder_buffer runs

/-! ## The filter -/

/-- The `while` of `receiver_process`. -/
def receiver_loop (timestamp ts corrective_slide : UInt32) :
    Nat → Receiver → Except Fault (Receiver × List Message)
  | 0, _ => .error .neverReturns
  | fuel + 1, r => do
    let (r, m) ← rtp_session_recvm_with_ts r timestamp ts corrective_slide
    match m with
    | none => return (r, [])
    | some m =>
      let (r, ms) ← receiver_loop timestamp ts corrective_slide fuel r
      return (r, m :: ms)

/-- Each packet that the filter takes was in the queue, or came from the socket. -/
def take_all (r : Receiver) (timestamp ts corrective_slide : UInt32) :
    Except Fault (Receiver × List Message) :=
  receiver_loop timestamp ts corrective_slide
    (r.session.rq.length + r.socket.length + 1) r

/-- The filter with its session. -/
structure ReceiverData where
  receiver : Receiver
  rate : Nat
  starting : Bool
  reset_jb : Bool

/-- The datagrams that still wait. A call that gets nothing ends the loop. -/
def rtp_session_flush_sockets (s : RtpSession) : List (List UInt8) → List (List UInt8)
  | [] => []
  | d :: ds =>
    match received { s with recv_buf_size := 4096 } d with
    | none => ds
    | some _ => rtp_session_flush_sockets s ds

/-- The session expects audio, or something else that is known and not video. -/
def flushes_at_start (s : RtpSession) : Bool :=
  match rtp_profile_get_payload s.rcv_profile s.rcv_pt with
  | some pt => pt.type ≠ .video
  | none => false

def reset_jitter_buffer (d : ReceiverData) : ReceiverData :=
  if d.reset_jb then
    let r := d.receiver
    { d with
      receiver := { r with
        session := (rtp_session_resync r.session).1
        fates := r.fates ++ (rtp_session_resync r.session).2 }
      reset_jb := false }
  else d

def start_receiving (d : ReceiverData) : ReceiverData :=
  if d.starting then
    let r := d.receiver
    if flushes_at_start r.session then
      { d with
        receiver := { r with socket := rtp_session_flush_sockets r.session r.socket }
        starting := false }
    else { d with starting := false }
  else d

def receiver_timestamp (rate time : Nat) : UInt32 := UInt32.ofNat (time * (rate / 1000))

def receiver_process (d : ReceiverData) (time : Nat) (ts corrective_slide : UInt32) :
    Except Fault (ReceiverData × List Message) := do
  let d := start_receiving (reset_jitter_buffer d)
  let (r, ms) ← take_all d.receiver (receiver_timestamp d.rate time) ts corrective_slide
  return ({ d with receiver := r }, ms)

/-- A filter that was set up with a session and preprocessed. -/
def receiver_filter (s : RtpSession) (rate : Nat) : ReceiverData :=
  { receiver := receiver s, rate := rate, starting := true, reset_jb := false }

/-- What comes between two ticks, and the time of the second. -/
structure Tick where
  ds : List (List UInt8)
  time : Nat
  ts : UInt32
  corrective_slide : UInt32

def tick (d : ReceiverData) (t : Tick) : Except Fault (ReceiverData × List Message) :=
  let r := d.receiver
  receiver_process { d with receiver := { r with socket := r.socket ++ t.ds } } t.time t.ts
    t.corrective_slide

def ticks : ReceiverData → List Tick → Except Fault (ReceiverData × List Message)
  | d, [] => .ok (d, [])
  | d, t :: rest => do
    let (d, ms) ← tick d t
    let (d, ms') ← ticks d rest
    return (d, ms ++ ms')

/-! ## Consecutive packets -/

/-- The numbers of the packets go on from `seq`. -/
def NumberedFrom : UInt16 → List Message → Prop
  | _, [] => True
  | seq, mp :: mps => mp.rtp.seq_number = seq ∧ NumberedFrom (seq + 1) mps

instance : (seq : UInt16) → (mps : List Message) → Decidable (NumberedFrom seq mps)
  | _, [] => inferInstanceAs (Decidable True)
  | seq, _ :: mps =>
    have := instDecidableNumberedFrom (seq + 1) mps
    inferInstanceAs (Decidable (_ ∧ _))

/-- The number of a packet, counted on from `seq`. -/
def counted (seq : UInt16) (mp : Message) : Nat := seq.toNat + (mp.rtp.seq_number - seq).toNat

/-- Packets of one media source, one after the other, fewer than half the circle. -/
structure Block (tev_pt : Int) (ssrc : UInt32) (seq : UInt16) (block : List Message) : Prop where
  numbered : NumberedFrom seq block
  short : block.length < 32768
  media : ∀ mp ∈ block, (mp.rtp.paytype : Int) ≠ tev_pt ∧ mp.rtp.ssrc = ssrc ∧
    4 * mp.rtp.cc < mp.data.length

/-- Each packet of the block comes at least once, and no other does. What else comes is no RTP
packet. Every datagram has a byte and fits into the buffer. -/
structure Brings (size : Nat) (ds : List (List UInt8)) (block : List Message) : Prop where
  fits : ∀ d ∈ ds, 0 < d.length ∧ d.length ≤ size
  packets : ∀ mp, mp ∈ ds.filterMap rtp_packet ↔ mp ∈ block

section

variable {seq : UInt16} {block : List Message}

theorem numbered_sub {k : Nat} {mps : List Message} (h : NumberedFrom (seq + UInt16.ofNat k) mps)
    (hk : k + mps.length ≤ 65536) :
    mps.map (fun mp => (mp.rtp.seq_number - seq).toNat) = List.range' k mps.length := by
  induction mps generalizing k with
  | nil => rfl
  | cons mp mps ih =>
    obtain ⟨hmp, hrest⟩ := h
    rw [List.length_cons] at hk
    have hnext : seq + UInt16.ofNat k + 1 = seq + UInt16.ofNat (k + 1) := by
      rw [UInt16.ofNat_add, ← UInt16.add_assoc]
      rfl
    rw [hnext] at hrest
    rw [List.map_cons, List.length_cons, List.range'_succ, ih hrest (by omega), hmp,
      UInt16.add_comm seq, UInt16.add_sub_cancel, UInt16.toNat_ofNat_of_lt' (by simp only [UInt16.size]; omega)]

theorem counted_block (h : NumberedFrom seq block) (hshort : block.length < 32768) :
    block.map (counted seq) = List.range' seq.toNat block.length := by
  have hzero : NumberedFrom (seq + UInt16.ofNat 0) block := by
    rw [show UInt16.ofNat 0 = 0 from rfl, UInt16.add_zero]
    exact h
  have hsub := numbered_sub hzero (by omega)
  calc block.map (counted seq)
      = (block.map fun mp => (mp.rtp.seq_number - seq).toNat).map (seq.toNat + ·) := by
        rw [List.map_map]
        rfl
    _ = List.range' seq.toNat block.length := by
        rw [hsub, List.map_add_range']
        rfl

theorem counted_numbered (seq : UInt16) (mp : Message) : Numbered (counted seq) mp := by
  unfold Numbered counted
  rw [UInt16.toNat_sub]
  have hseq := seq.toNat_lt
  have hmp := mp.rtp.seq_number.toNat_lt
  omega

theorem counted_bounds (h : NumberedFrom seq block) (hshort : block.length < 32768) {mp : Message}
    (hmp : mp ∈ block) : seq.toNat ≤ counted seq mp ∧ counted seq mp < seq.toNat + block.length := by
  have hmem := List.mem_map_of_mem (f := counted seq) hmp
  rw [counted_block h hshort, List.mem_range'_1] at hmem
  exact hmem

theorem block_window (h : NumberedFrom seq block) (hshort : block.length < 32768) :
    Window (counted seq) block := by
  refine ⟨fun mp _ => counted_numbered seq mp, fun mp hmp mp' hmp' => ?_⟩
  have hone := counted_bounds h hshort hmp
  have htwo := counted_bounds h hshort hmp'
  omega

theorem block_ascending (h : NumberedFrom seq block) (hshort : block.length < 32768) :
    Ascending (counted seq) block := by
  have hrange : (block.map (counted seq)).Pairwise (· < ·) := by
    rw [counted_block h hshort]
    exact List.pairwise_lt_range'
  exact List.pairwise_map.mp hrange

/-- Ascending packets with the same numbers are the same packets. -/
theorem ascending_unique {ext : Message → Nat} {q q' : List Message} (hq : Ascending ext q)
    (hmap : q'.map ext = q.map ext) (hsub : ∀ m ∈ q', m ∈ q) : q' = q := by
  induction q generalizing q' with
  | nil => exact List.map_eq_nil_iff.mp hmap
  | cons x q ih =>
    obtain ⟨y, q', rfl⟩ := List.exists_cons_of_ne_nil (l := q') (by rintro rfl; cases hmap)
    obtain ⟨hxy, hrest⟩ := List.cons.inj hmap
    obtain ⟨hx, hasc⟩ := List.pairwise_cons.mp hq
    have hy : y = x := by
      rcases List.mem_cons.mp (hsub y List.mem_cons_self) with hy | hy
      · exact hy
      · have := hx y hy
        omega
    have hq' : ∀ m ∈ q', m ∈ q := by
      intro m hm
      rcases List.mem_cons.mp (hsub m (List.mem_cons_of_mem y hm)) with rfl | hm'
      · have hkey : ext m ∈ q.map ext := by
          rw [← hrest]
          exact List.mem_map_of_mem hm
        obtain ⟨m', hm', hext⟩ := List.mem_map.mp hkey
        have := hx m' hm'
        omega
      · exact hm'
    rw [hy, ih hasc hrest hq']

/-- Whatever the network did to a block, the queue holds it as it was sent. -/
theorem block_queued {tev_pt : Int} {ssrc : UInt32} {mps : List Message} {n : Nat}
    (h : Block tev_pt ssrc seq block) (hn : block.length ≤ n) (hmem : ∀ m, m ∈ mps ↔ m ∈ block) :
    (putAll (counted seq) n [] mps).reverse = block := by
  have hasc := block_ascending h.numbered h.short
  apply ascending_unique hasc
  · have hset : (mps.map (counted seq)).toFinset = (block.map (counted seq)).toFinset := by
      ext k
      simp only [List.mem_toFinset, List.mem_map, hmem]
    have hdesc : Descending (counted seq) block.reverse := List.pairwise_reverse.mpr hasc
    have hsort := descending_eq_sort (s := (mps.map (counted seq)).toFinset) hdesc fun k => by
      rw [hset, List.mem_toFinset, List.map_reverse, List.mem_reverse]
    rw [List.map_reverse, putAll_newest, newest, ← hsort, List.take_of_length_le (by simpa using hn),
      List.map_reverse, List.reverse_reverse]
  · exact fun m hm => (hmem m).mp (mem_putAll (List.mem_reverse.mp hm))

end

/-! ## One tick -/

/-- A session without a jitter buffer, which no signal resyncs, and which heard no other
source. -/
structure Ready (tev_pt : Int) (n size : Nat) (ssrc : UInt32) (s : RtpSession) : Prop where
  tev_rq : s.tev_rq = []
  jitter_enabled : s.jitter_enabled = false
  adaptive : s.adaptive = false
  on_timestamp_jump : s.on_timestamp_jump = false
  telephone_events_pt : s.telephone_events_pt = tev_pt
  max_rq_size : s.max_rq_size = n
  recv_buf_size : size ≤ s.recv_buf_size
  locked : s.ssrc_set = true → s.rcv_ssrc = ssrc

/-- What a session knows of the times of the packets, and of the calls. -/
def times (s : RtpSession) : (Bool × UInt32) × Bool × UInt32 :=
  ((s.first_packet_delivered, s.rcv_last_ts), s.recv_not_started, s.rcv_last_app_ts)

/-- No packet is older than the last one that was delivered. -/
def NotOlder (s : RtpSession) (mps : List Message) : Prop :=
  s.first_packet_delivered = true →
    ∀ mp ∈ mps, RTP_TIMESTAMP_IS_NEWER_THAN mp.rtp.timestamp s.rcv_last_ts = true

theorem not_older_times {s s' : RtpSession} {mps : List Message} (h : NotOlder s mps)
    (htimes : times s' = times s) : NotOlder s' mps := by
  simp only [times, Prod.mk.injEq] at htimes
  obtain ⟨⟨hfirst, hlast⟩, -, -⟩ := htimes
  unfold NotOlder
  rw [hfirst, hlast]
  exact h

section

variable {tev_pt : Int} {n size : Nat} {ssrc : UInt32} {seq : UInt16} {block : List Message}
  {s : RtpSession} {mp : Message}

theorem check_timestamp_passes_on (h : Ready tev_pt n size ssrc s)
    (hnew : s.first_packet_delivered = true →
      RTP_TIMESTAMP_IS_NEWER_THAN mp.rtp.timestamp s.rcv_last_ts = true) :
    check_timestamp s mp = (s, [], true) := by
  unfold check_timestamp
  split
  · rename_i hfirst
    split
    · unfold emit
      rw [h.on_timestamp_jump]
      rfl
    · rw [if_neg]
      intro hold
      have hnewer := hnew hfirst
      rw [newer_than] at hnewer
      rw [strictly_newer_than] at hold
      have hmp := mp.rtp.timestamp.toNat_lt
      have hlast := s.rcv_last_ts.toNat_lt
      omega
  · rfl

/-- A media packet of the block is put into the queue at its place. -/
theorem queue_media_ready (hblock : Block tev_pt ssrc seq block) (hmp : mp ∈ block)
    (h : Ready tev_pt n size ssrc s) (hq : ∀ m ∈ s.rq, m ∈ block) :
    ∃ r, queue_media s mp = .ok r ∧ Ready tev_pt n size ssrc r.1 ∧ times r.1 = times s ∧
      r.1.rq = ((put (counted seq) mp s.rq.reverse).take n).reverse := by
  have harrive := arrive_eq (n := n) (block_window hblock.numbered hblock.short) hmp hq
  have hhas : HasData mp := by
    have hdata := (hblock.media mp hmp).2.2
    unfold HasData
    omega
  rw [if_pos hhas] at harrive
  unfold arrive at harrive
  unfold queue_media
  rw [h.max_rq_size]
  cases hqueue : queue_packet s.rq n mp with
  | error e =>
    rw [hqueue] at harrive
    cases harrive
  | ok qd =>
    rw [hqueue] at harrive
    obtain ⟨h1, h2, h3, h4, h5, h6, h7, h8⟩ := h
    exact ⟨_, rfl, ⟨h1, h2, h3, h4, h5, rfl, h7, h8⟩, rfl, Except.ok.inj harrive⟩

theorem ready_update_statistics (h : Ready tev_pt n size ssrc s) (seq : UInt16) :
    Ready tev_pt n size ssrc (update_statistics s seq) ∧
      times (update_statistics s seq) = times s ∧ (update_statistics s seq).rq = s.rq := by
  obtain ⟨h1, h2, h3, h4, h5, h6, h7, h8⟩ := h
  obtain ⟨hi, lo, first, heq⟩ := update_statistics_eq s seq
  rw [heq]
  exact ⟨⟨h1, h2, h3, h4, h5, h6, h7, h8⟩, rfl, rfl⟩

theorem ready_check_payload_type (h : Ready tev_pt n size ssrc s) (paytype : Nat) :
    Ready tev_pt n size ssrc (check_payload_type s paytype) ∧
      times (check_payload_type s paytype) = times s ∧
      (check_payload_type s paytype).rq = s.rq := by
  obtain ⟨h1, h2, h3, h4, h5, h6, h7, h8⟩ := h
  obtain ⟨pt, jump, permissive, -, heq⟩ := check_payload_type_eq s paytype
  rw [heq]
  exact ⟨⟨h1, h2, h3, h4, h5, h6, h7, h8⟩, rfl, rfl⟩

theorem sort_packet_ready (hblock : Block tev_pt ssrc seq block) (hmp : mp ∈ block)
    (h : Ready tev_pt n size ssrc s) (hnew : NotOlder s block) (hq : ∀ m ∈ s.rq, m ∈ block) :
    ∃ r, sort_packet s mp = .ok r ∧ Ready tev_pt n size ssrc r.1 ∧ times r.1 = times s ∧
      r.1.rq = ((put (counted seq) mp s.rq.reverse).take n).reverse := by
  obtain ⟨hready₁, htimes₁, hrq₁⟩ := ready_update_statistics h mp.rtp.seq_number
  unfold sort_packet
  generalize update_statistics s mp.rtp.seq_number = s₁ at hready₁ htimes₁ hrq₁
  obtain ⟨hready₂, htimes₂, hrq₂⟩ := ready_check_payload_type hready₁ mp.rtp.paytype
  dsimp only
  rw [hready₁.telephone_events_pt, if_neg (hblock.media mp hmp).1]
  generalize check_payload_type s₁ mp.rtp.paytype = s₂ at hready₂ htimes₂ hrq₂
  have hnew₂ := not_older_times (not_older_times hnew htimes₁) htimes₂
  rw [hrq₁] at hrq₂
  rw [check_timestamp_passes_on hready₂ fun hdelivered => hnew₂ hdelivered mp hmp]
  dsimp only
  obtain ⟨r, hr, hready, htimes, hrq⟩ := queue_media_ready hblock hmp hready₂ (by rwa [hrq₂])
  rw [if_pos rfl, hr, ok_bind]
  exact ⟨_, rfl, hready, htimes.trans (htimes₂.trans htimes₁), by rw [← hrq₂]; exact hrq⟩

theorem parse_ready (hblock : Block tev_pt ssrc seq block) (hmp : mp ∈ block) {d : List UInt8}
    (hd : rtp_packet d = some mp) (h : Ready tev_pt n size ssrc s) (hnew : NotOlder s block)
    (hq : ∀ m ∈ s.rq, m ∈ block) :
    ∃ r, rtp_session_rtp_parse s d = .ok r ∧ Ready tev_pt n size ssrc r.1 ∧
      times r.1 = times s ∧ r.1.rq = ((put (counted seq) mp s.rq.reverse).take n).reverse := by
  obtain ⟨hmessage, hversion⟩ := Option.filter_eq_some_iff.mp hd
  obtain ⟨-, hssrc, hdata⟩ := hblock.media mp hmp
  obtain ⟨h1, h2, h3, h4, h5, h6, h7, h8⟩ := h
  unfold rtp_session_rtp_parse
  rw [hmessage]
  dsimp only
  rw [if_neg (not_not.mpr (by simpa using hversion))]
  unfold parse_packet
  rw [if_neg (by omega)]
  have hlock : ∃ s₁, lock_ssrc (count_received s d.length) mp = (s₁, [], true) ∧
      Ready tev_pt n size ssrc s₁ ∧ times s₁ = times s ∧ s₁.rq = s.rq := by
    unfold lock_ssrc
    by_cases hset : (count_received s d.length).ssrc_set = true
    · have hsame : (count_received s d.length).rcv_ssrc = mp.rtp.ssrc := by
        rw [hssrc]
        exact h8 hset
      rw [if_pos hset, if_neg (not_not.mpr hsame)]
      exact ⟨_, rfl, ⟨h1, h2, h3, h4, h5, h6, h7, h8⟩, rfl, rfl⟩
    · rw [if_neg hset]
      exact ⟨_, rfl, ⟨h1, h2, h3, h4, h5, h6, h7, fun _ => hssrc⟩, rfl, rfl⟩
  obtain ⟨s₁, hlocked, hready, htimes, hrq⟩ := hlock
  obtain ⟨r, hr, hready', hrtimes, hrrq⟩ :=
    sort_packet_ready hblock hmp hready (not_older_times hnew htimes) (by rwa [hrq])
  rw [hlocked]
  dsimp only
  rw [if_pos rfl, hr, ok_bind]
  exact ⟨_, rfl, hready', hrtimes.trans htimes, by rw [← hrq]; exact hrrq⟩

/-- What is no RTP packet is counted bad, or goes to the event queue. -/
theorem parse_foreign (s : RtpSession) {d : List UInt8} (hd : rtp_packet d = none) :
    ∃ stats events,
      rtp_session_rtp_parse s d = .ok ({ s with stats := stats, stun_events := events }, []) := by
  unfold rtp_session_rtp_parse
  split
  · exact ⟨_, s.stun_events, rfl⟩
  · rename_i mp hmp
    have hversion : mp.rtp.version ≠ 2 := by
      intro h2
      unfold rtp_packet at hd
      rw [hmp, Option.filter_some, if_pos (by simpa using h2)] at hd
      cases hd
    rw [if_pos hversion]
    split
    · exact ⟨s.stats, _, rfl⟩
    · exact ⟨_, s.stun_events, rfl⟩

theorem received_fits {d : List UInt8} (hpos : 0 < d.length) (hsize : d.length ≤ s.recv_buf_size) :
    received s d = some d := by
  unfold received rtp_session_rtp_recv_abstract
  rw [if_pos hsize, Option.filter_some, if_pos (by simpa using hpos)]

theorem recv_ready (hblock : Block tev_pt ssrc seq block) {ds : List (List UInt8)}
    (hfits : ∀ d ∈ ds, 0 < d.length ∧ d.length ≤ size)
    (hmps : ∀ m ∈ ds.filterMap rtp_packet, m ∈ block)
    (h : Ready tev_pt n size ssrc s) (hnew : NotOlder s block) (hq : ∀ m ∈ s.rq, m ∈ block) :
    ∃ r, rtp_session_rtp_recv s ds = .ok r ∧ Ready tev_pt n size ssrc r.session ∧
      times r.session = times s ∧ r.waiting = [] ∧
      r.session.rq =
        (putAll (counted seq) n s.rq.reverse (ds.filterMap rtp_packet)).reverse := by
  induction ds generalizing s with
  | nil => exact ⟨_, rfl, h, rfl, rfl, (List.reverse_reverse _).symm⟩
  | cons d ds ih =>
    obtain ⟨hpos, hsize⟩ := hfits d List.mem_cons_self
    have hd := received_fits hpos (hsize.trans h.recv_buf_size)
    have hfits' : ∀ d ∈ ds, 0 < d.length ∧ d.length ≤ size := fun d hd =>
      hfits d (List.mem_cons_of_mem _ hd)
    cases hpacket : rtp_packet d with
    | none =>
      rw [List.filterMap_cons_none hpacket] at hmps ⊢
      obtain ⟨stats, events, hparse⟩ := parse_foreign s hpacket
      obtain ⟨h1, h2, h3, h4, h5, h6, h7, h8⟩ := h
      obtain ⟨r, hr, hready, htimes, hwaiting, hrq⟩ :=
        ih (s := { s with stats := stats, stun_events := events }) hfits' hmps
          ⟨h1, h2, h3, h4, h5, h6, h7, h8⟩ hnew hq
      exact ⟨_, recv_parsed hd hparse hr, hready, htimes, hwaiting, hrq⟩
    | some mp =>
      rw [List.filterMap_cons_some hpacket] at hmps ⊢
      have hmp := hmps mp List.mem_cons_self
      obtain ⟨p, hparse, hready, htimes, hrq⟩ := parse_ready hblock hmp hpacket h hnew hq
      have hq₁ : ∀ m ∈ p.1.rq, m ∈ block := by
        intro m hm
        rw [hrq] at hm
        rcases mem_put (List.mem_of_mem_take (List.mem_reverse.mp hm)) with rfl | hm
        · exact hmp
        · exact hq m (List.mem_reverse.mp hm)
      obtain ⟨r, hr, hready', htimes', hwaiting, hrq'⟩ := ih (s := p.1) hfits'
        (fun m hm => hmps m (List.mem_cons_of_mem mp hm)) hready (not_older_times hnew htimes) hq₁
      refine ⟨_, recv_parsed hd hparse hr, hready', htimes'.trans htimes, hwaiting, ?_⟩
      dsimp only
      rw [hrq', hrq, List.reverse_reverse]
      rfl

end

/-! ## The queue is emptied -/

/-- The time of the last packet, or `ts` when there is none. -/
def last_ts (mps : List Message) (ts : UInt32) : UInt32 :=
  mps.foldl (fun _ mp => mp.rtp.timestamp) ts

section

variable {tev_pt : Int} {n size : Nat} {ssrc : UInt32} {seq : UInt16} {block : List Message}
  {s : RtpSession}

theorem take_media_empty (h : Ready tev_pt n size ssrc s) (hrq : s.rq = []) (ts : UInt32) :
    ∃ s', take_media s ts = (s', none, []) ∧ Ready tev_pt n size ssrc s' ∧ times s' = times s ∧
      s'.rq = [] := by
  obtain ⟨h1, h2, h3, h4, h5, h6, h7, h8⟩ := h
  unfold take_media take_due
  rw [hrq]
  cases hsync : s.recv_sync with
  | true => exact ⟨s, rfl, ⟨h1, h2, h3, h4, h5, h6, h7, h8⟩, rfl, hrq⟩
  | false =>
    dsimp only
    rw [h2]
    exact ⟨_, rfl, ⟨h1, rfl, h3, h4, h5, h6, h7, h8⟩, rfl, rfl⟩

theorem take_media_first (h : Ready tev_pt n size ssrc s) {mp : Message} {q : List Message}
    (hrq : s.rq = mp :: q) (hssrc : mp.rtp.ssrc = ssrc) (ts : UInt32) :
    ∃ s', take_media s ts = (s', some mp, []) ∧ Ready tev_pt n size ssrc s' ∧
      times s' = times s ∧ s'.rq = q := by
  obtain ⟨h1, h2, h3, h4, h5, h6, h7, h8⟩ := h
  unfold take_media take_due
  rw [hrq]
  cases hsync : s.recv_sync with
  | true =>
    dsimp only
    rw [h2]
    exact ⟨_, rfl, ⟨h1, rfl, h3, h4, h5, h6, h7, fun _ => hssrc⟩, rfl, rfl⟩
  | false =>
    dsimp only
    rw [h2]
    exact ⟨_, rfl, ⟨h1, rfl, h3, h4, h5, h6, h7, h8⟩, rfl, rfl⟩

/-- A receiver that asks again for the same time. -/
def Asked (timestamp : UInt32) (r : Receiver) : Prop :=
  r.session.recv_not_started = false ∧ timestamp = r.session.rcv_last_app_ts

theorem asked_reads_nothing {timestamp : UInt32} {r : Receiver} (h : Asked timestamp r) :
    read_socket r timestamp = .ok r := if_pos h

theorem deliver_ready (h : Ready tev_pt n size ssrc s) (mp : Message) :
    Ready tev_pt n size ssrc (deliver s (some mp)).1 ∧ (deliver s (some mp)).1.rq = s.rq ∧
      times (deliver s (some mp)).1 =
        ((true, mp.rtp.timestamp), s.recv_not_started, s.rcv_last_app_ts) := by
  obtain ⟨h1, h2, h3, h4, h5, h6, h7, h8⟩ := h
  obtain ⟨pt, hdeliver⟩ := deliver_some s mp
  rw [hdeliver]
  exact ⟨⟨h1, h2, h3, h4, h5, h6, h7, h8⟩, rfl, rfl⟩

/-- The filter takes the whole queue, and remembers the time of its last packet. -/
theorem receiver_loop_drains {timestamp : UInt32} (ts slide : UInt32) {q : List Message} :
    ∀ {fuel : Nat} {r : Receiver}, q.length < fuel → r.session.rq = q →
      (∀ m ∈ q, m.rtp.ssrc = ssrc) → Ready tev_pt n size ssrc r.session → Asked timestamp r →
      ∃ r', receiver_loop timestamp ts slide fuel r = .ok (r', q) ∧
        Ready tev_pt n size ssrc r'.session ∧ r'.session.rq = [] ∧ r'.socket = r.socket ∧
        times r'.session =
          ((r.session.first_packet_delivered || !q.isEmpty,
            last_ts q r.session.rcv_last_ts), false, timestamp) := by
  induction q with
  | nil =>
    intro fuel r hfuel hrq _ hready hasked
    obtain ⟨fuel, rfl⟩ : ∃ k, fuel = k + 1 := ⟨fuel - 1, by omega⟩
    obtain ⟨s', hmedia, hready', htimes, hrq'⟩ := take_media_empty hready hrq ts
    have htev : take_telephone_event r.session = (r.session, []) := by
      unfold take_telephone_event
      rw [hready.tev_rq]
    unfold receiver_loop
    rw [recvm_eq (asked_reads_nothing hasked), htev]
    dsimp only
    rw [hmedia]
    refine ⟨_, rfl, hready', hrq', rfl, ?_⟩
    refine htimes.trans ?_
    unfold times
    rw [hasked.1, ← hasked.2]
    simp [last_ts]
  | cons mp q ih =>
    intro fuel r hfuel hrq hssrc hready hasked
    obtain ⟨fuel, rfl⟩ : ∃ k, fuel = k + 1 := ⟨fuel - 1, by omega⟩
    obtain ⟨s', hmedia, hready', htimes, hrq'⟩ :=
      take_media_first hready hrq (hssrc mp List.mem_cons_self) ts
    have htev : take_telephone_event r.session = (r.session, []) := by
      unfold take_telephone_event
      rw [hready.tev_rq]
    unfold receiver_loop
    rw [recvm_eq (asked_reads_nothing hasked), htev]
    dsimp only
    rw [hmedia]
    dsimp only
    obtain ⟨hdelivered, hdrq, hdtimes⟩ := deliver_ready hready' mp
    generalize deliver s' (some mp) = dl at hdelivered hdrq hdtimes
    have hcompensated : compensated dl.1 slide mp = mp := by
      unfold compensated
      exact if_neg (by rw [hdelivered.adaptive]; decide)
    simp only [times, Prod.mk.injEq] at htimes hdtimes
    obtain ⟨-, hstarted, happ⟩ := htimes
    obtain ⟨⟨hfirst, hlast⟩, hdstarted, hdapp⟩ := hdtimes
    obtain ⟨r', hloop, hready'', hrq'', hsocket, htimes'⟩ :=
      @ih fuel
        { r with session := dl.1, fates := r.fates ++ [] ++ [] ++ dl.2 }
        (by rw [List.length_cons] at hfuel; omega) (hdrq.trans hrq')
        (fun m hm => hssrc m (List.mem_cons_of_mem mp hm)) hdelivered
        ⟨hdstarted.trans (hstarted.trans hasked.1),
          hasked.2.trans (hdapp.trans happ).symm⟩
    rw [ok_bind]
    dsimp only [Option.map_some]
    rw [hloop, ok_bind, hcompensated]
    refine ⟨r', rfl, hready'', hrq'', hsocket, htimes'.trans ?_⟩
    dsimp only
    rw [hfirst, hlast]
    simp [last_ts]

/-- A session between two ticks: nothing waits. -/
structure Idle (tev_pt : Int) (n size : Nat) (ssrc : UInt32) (r : Receiver) : Prop where
  ready : Ready tev_pt n size ssrc r.session
  rq : r.session.rq = []
  socket : r.socket = []

/-- The filter takes the packets that came since the last tick, in order. -/
theorem take_all_delivers {r : Receiver} {timestamp : UInt32} (ts slide : UInt32)
    (hblock : Block tev_pt ssrc seq block) (hn : block.length ≤ n)
    (hbrings : Brings size r.socket block) (hready : Ready tev_pt n size ssrc r.session)
    (hrq : r.session.rq = []) (hread : ¬ Asked timestamp r) (hnew : NotOlder r.session block) :
    ∃ r', take_all r timestamp ts slide = .ok (r', block) ∧ Idle tev_pt n size ssrc r' ∧
      times r'.session = ((r.session.first_packet_delivered || !block.isEmpty,
        last_ts block r.session.rcv_last_ts), false, timestamp) := by
  obtain ⟨h1, h2, h3, h4, h5, h6, h7, h8⟩ := hready
  obtain ⟨got, hrecv, hready₁, htimes, hwaiting, hrq₁⟩ := recv_ready
    (s := { r.session with recv_not_started := false, rcv_last_app_ts := timestamp }) hblock
    hbrings.fits (fun m hm => (hbrings.packets m).mp hm)
    ⟨h1, h2, h3, h4, h5, h6, h7, h8⟩ hnew
    (by dsimp only; rw [hrq]; exact fun m hm => absurd hm List.not_mem_nil)
  dsimp only at hrecv htimes hrq₁
  rw [hrq, List.reverse_nil, block_queued hblock hn hbrings.packets] at hrq₁
  simp only [times, Prod.mk.injEq] at htimes
  obtain ⟨⟨hfirst, hlast⟩, hstarted, happ⟩ := htimes
  -- the first call reads the socket, and the later ones find the same time
  have hreads : read_socket r timestamp =
      .ok { session := got.session, socket := [], read := r.read ++ got.taken,
            fates := r.fates ++ got.freed } := by
    unfold read_socket
    refine (if_neg hread).trans ?_
    rw [hrecv, ok_bind, hwaiting]
    rfl
  have hasked : Asked timestamp
      { session := got.session, socket := [], read := r.read ++ got.taken,
        fates := r.fates ++ got.freed } := ⟨hstarted, happ.symm⟩
  have hlength : block.length ≤ r.socket.length := by
    have hnodup : block.Nodup := by
      refine (block_ascending hblock.numbered hblock.short).imp ?_
      rintro m m' hlt rfl
      exact absurd hlt (Nat.lt_irrefl _)
    have hsub := (hnodup.subperm fun m hm => (hbrings.packets m).mpr hm).length_le
    exact hsub.trans (List.length_filterMap_le _ _)
  obtain ⟨r', hloop, hready', hrq', hsocket, htimes'⟩ := receiver_loop_drains ts slide (q := block)
    (show block.length < r.session.rq.length + r.socket.length + 1 by omega)
    hrq₁ (fun m hm => (hblock.media m hm).2.1) hready₁ hasked
  refine ⟨r', ?_, ⟨hready', hrq', hsocket⟩, ?_⟩
  · unfold take_all
    rw [← hloop]
    unfold receiver_loop
    rw [recvm_eq hreads, recvm_eq (asked_reads_nothing hasked)]
  · rw [htimes', hfirst, hlast]

/-! ## A run of ticks -/

/-- No packet is older than the last of the packets before its tick. -/
def Paced : Option UInt32 → List (List Message) → Prop
  | _, [] => True
  | last, block :: blocks =>
    (∀ ts, last = some ts →
      ∀ mp ∈ block, RTP_TIMESTAMP_IS_NEWER_THAN mp.rtp.timestamp ts = true) ∧
    Paced ((block.getLast?.map (·.rtp.timestamp)).or last) blocks

theorem numbered_append {seq : UInt16} {mps mps' : List Message} :
    NumberedFrom seq (mps ++ mps') ↔
      NumberedFrom seq mps ∧ NumberedFrom (seq + UInt16.ofNat mps.length) mps' := by
  induction mps generalizing seq with
  | nil =>
    rw [List.nil_append, List.length_nil, show UInt16.ofNat 0 = 0 from rfl, UInt16.add_zero]
    exact (and_iff_right trivial).symm
  | cons mp mps ih =>
    rw [List.cons_append, NumberedFrom, NumberedFrom, ih, List.length_cons, and_assoc,
      UInt16.add_assoc, show 1 + UInt16.ofNat mps.length = UInt16.ofNat (mps.length + 1) by
        rw [UInt16.ofNat_add, UInt16.add_comm]; rfl]

theorem last_ts_eq (mps : List Message) (ts : UInt32) :
    last_ts mps ts = (mps.getLast?.map (·.rtp.timestamp)).getD ts := by
  induction mps using List.reverseRecOn with
  | nil => rfl
  | append_singleton mps mp _ => simp [last_ts]

/-- What was delivered last. -/
def last_delivered (s : RtpSession) : Option UInt32 :=
  if s.first_packet_delivered then some s.rcv_last_ts else none

/-- A filter that runs. -/
structure Runs (rate : Nat) (d : ReceiverData) : Prop where
  rate : d.rate = rate
  starting : d.starting = false
  reset_jb : d.reset_jb = false

theorem tick_running {rate : Nat} {d : ReceiverData} (h : Runs rate d) (t : Tick) :
    tick d t = (take_all { d.receiver with socket := d.receiver.socket ++ t.ds }
      (receiver_timestamp rate t.time) t.ts t.corrective_slide).map fun r =>
        ({ d with receiver := r.1 }, r.2) := by
  unfold tick receiver_process start_receiving reset_jitter_buffer
  dsimp only
  rw [h.reset_jb, if_neg Bool.false_ne_true]
  dsimp only
  rw [h.starting, if_neg Bool.false_ne_true, h.rate]
  show (take_all _ _ _ _ >>= _) = _
  cases take_all { d.receiver with socket := d.receiver.socket ++ t.ds }
      (receiver_timestamp rate t.time) t.ts t.corrective_slide with
  | error e => rfl
  | ok r => rfl

theorem ticks_deliver {rate : Nat} (hn : n < 32768) (rounds : List (Tick × List Message)) :
    ∀ {seq : UInt16} {d : ReceiverData}, NumberedFrom seq (rounds.flatMap (·.2)) →
      (∀ mp ∈ rounds.flatMap (·.2), (mp.rtp.paytype : Int) ≠ tev_pt ∧ mp.rtp.ssrc = ssrc ∧
        4 * mp.rtp.cc < mp.data.length) →
      (∀ x ∈ rounds, x.2.length ≤ n ∧ Brings size x.1.ds x.2) →
      (∀ x ∈ rounds.head?, ¬ Asked (receiver_timestamp rate x.1.time) d.receiver) →
      (rounds.map fun x => receiver_timestamp rate x.1.time).IsChain (· ≠ ·) →
      Paced (last_delivered d.receiver.session) (rounds.map (·.2)) →
      Idle tev_pt n size ssrc d.receiver → Runs rate d →
      ∃ d', ticks d (rounds.map (·.1)) = .ok (d', rounds.flatMap (·.2)) := by
  induction rounds with
  | nil => exact fun _ _ _ _ _ _ _ _ => ⟨_, rfl⟩
  | cons x rounds ih =>
    intro seq d hseq hmedia hall hread hchain hpaced hidle hruns
    rw [List.flatMap_cons] at hseq hmedia ⊢
    obtain ⟨hhere, hlater⟩ := numbered_append.mp hseq
    obtain ⟨hlen, hbrings⟩ := hall x List.mem_cons_self
    have hblock : Block tev_pt ssrc seq x.2 :=
      ⟨hhere, by omega, fun mp hmp => hmedia mp (List.mem_append_left _ hmp)⟩
    obtain ⟨hpace, hpaced'⟩ := hpaced
    have hnew : NotOlder d.receiver.session x.2 := by
      intro hfirst mp hmp
      refine hpace _ ?_ mp hmp
      unfold last_delivered
      rw [if_pos hfirst]
    obtain ⟨r₁, htake, hidle₁, htimes⟩ := take_all_delivers
      (r := { d.receiver with socket := d.receiver.socket ++ x.1.ds }) x.1.ts
      x.1.corrective_slide hblock hlen (by rw [hidle.socket]; exact hbrings) hidle.ready hidle.rq
      (hread x rfl) hnew
    simp only [times, Prod.mk.injEq] at htimes
    obtain ⟨⟨hfirst, hlast⟩, hstarted, happ⟩ := htimes
    have hlastd : last_delivered r₁.session =
        (x.2.getLast?.map (·.rtp.timestamp)).or (last_delivered d.receiver.session) := by
      unfold last_delivered
      rw [hfirst, hlast, last_ts_eq]
      cases hx : x.2.getLast? with
      | none =>
        rw [List.getLast?_eq_none_iff.mp hx]
        simp
      | some mp =>
        have hne : x.2 ≠ [] := by
          intro hnil
          rw [hnil] at hx
          cases hx
        simp [hne]
    have hread₁ : ∀ y ∈ rounds.head?, ¬ Asked (receiver_timestamp rate y.1.time) r₁ := by
      rintro y hy ⟨-, hsame⟩
      obtain ⟨rest, rfl⟩ : ∃ rest, rounds = y :: rest := by
        cases rounds with
        | nil => cases hy
        | cons z rest =>
          cases hy
          exact ⟨rest, rfl⟩
      rw [List.map_cons, List.map_cons, List.isChain_cons_cons] at hchain
      exact hchain.1 (happ.symm.trans hsame.symm)
    obtain ⟨hrate, hstarting, hreset⟩ := hruns
    obtain ⟨d', hticks⟩ := ih (d := { d with receiver := r₁ }) hlater
      (fun mp hmp => hmedia mp (List.mem_append_right _ hmp))
      (fun y hy => hall y (List.mem_cons_of_mem x hy)) hread₁ hchain.of_cons
      (by rw [hlastd]; exact hpaced') hidle₁ ⟨hrate, hstarting, hreset⟩
    refine ⟨d', ?_⟩
    rw [List.map_cons]
    unfold ticks
    rw [tick_running ⟨hrate, hstarting, hreset⟩, htake]
    show (ticks { d with receiver := r₁ } _ >>= _) = _
    rw [hticks]
    rfl

end

/-! ## The first tick -/

section

variable {tev_pt : Int} {n size : Nat} {ssrc : UInt32} {seq : UInt16} {s : RtpSession} {rate : Nat}

/-- A session that expects video, or does not know what, starts with what waits. -/
theorem tick_starting (h : flushes_at_start s = false) (t : Tick) :
    tick (receiver_filter s rate) t =
      tick { receiver := receiver s, rate := rate, starting := false, reset_jb := false } t := by
  unfold tick receiver_process reset_jitter_buffer start_receiving receiver_filter receiver
  dsimp only
  rw [if_neg Bool.false_ne_true, if_pos rfl, h]
  rfl

/-- A session that waits for its first packet. -/
structure Waits (tev_pt : Int) (n size : Nat) (ssrc : UInt32) (s : RtpSession) : Prop where
  ready : Ready tev_pt n size ssrc s
  rq : s.rq = []
  recv_not_started : s.recv_not_started = true
  first_packet_delivered : s.first_packet_delivered = false

/-- From the first tick on, in a filter that flushes nothing. -/
theorem ticks_from_start (hn : n < 32768) (h : Waits tev_pt n size ssrc s)
    (rounds : List (Tick × List Message)) (hseq : NumberedFrom seq (rounds.flatMap (·.2)))
    (hmedia : ∀ mp ∈ rounds.flatMap (·.2), (mp.rtp.paytype : Int) ≠ tev_pt ∧
      mp.rtp.ssrc = ssrc ∧ 4 * mp.rtp.cc < mp.data.length)
    (hbrings : ∀ x ∈ rounds, x.2.length ≤ n ∧ Brings size x.1.ds x.2)
    (hclock : (rounds.map fun x => receiver_timestamp rate x.1.time).IsChain (· ≠ ·))
    (hpaced : Paced none (rounds.map (·.2))) :
    ∃ d, ticks { receiver := receiver s, rate := rate, starting := false, reset_jb := false }
      (rounds.map (·.1)) = .ok (d, rounds.flatMap (·.2)) := by
  refine ticks_deliver hn rounds hseq hmedia hbrings (fun x _ hasked => ?_) hclock ?_
    ⟨h.ready, h.rq, rfl⟩ ⟨rfl, rfl, rfl⟩
  · rw [Asked, receiver, h.recv_not_started] at hasked
    cases hasked.1
  · unfold last_delivered receiver
    rw [h.first_packet_delivered, if_neg Bool.false_ne_true]
    exact hpaced

theorem ticks_starting (h : flushes_at_start s = false) (ts : List Tick) :
    (ticks (receiver_filter s rate) ts).map Prod.snd =
      (ticks { receiver := receiver s, rate := rate, starting := false, reset_jb := false }
        ts).map Prod.snd := by
  cases ts with
  | nil => rfl
  | cons t ts =>
    unfold ticks
    rw [tick_starting h]

end

end zonekey_mcu.rtp_session
