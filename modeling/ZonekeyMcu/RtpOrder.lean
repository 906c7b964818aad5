-- The packets of one source reach the application in the order of their timestamps, in
-- whatever order the network brings them.
import ZonekeyMcu.RtpAccounting

namespace zonekey_mcu.rtp_session

open serial_numbers reorder_buffer runs

/-! ## The source -/

/-- The packets that go to the media queue of a session. -/
def media_packets (telephone_events_pt : Int) (ds : List (List UInt8)) : List Message :=
  (ds.filterMap rtp_packet).filter fun mp => (mp.rtp.paytype : Int) ≠ telephone_events_pt

/-- The greatest jump limit that a session can come to. -/
def jumps (s : RtpSession) : Nat := max s.ts_jump.toNat (jump_limit s s.time_jump).toNat

/-- `tsx` gives the timestamps before they wrapped to 32 bits. No packet is so much older
than another that the age would be taken for a jump. -/
structure Stamped (ext tsx : Message → Nat) (jump : Nat) (mps : List Message) : Prop where
  stamp : ∀ mp ∈ mps, mp.rtp.timestamp.toNat = tsx mp % 2 ^ 32
  monotone : ∀ mp ∈ mps, ∀ mp' ∈ mps, ext mp ≤ ext mp' → tsx mp ≤ tsx mp'
  near : ∀ mp ∈ mps, ∀ mp' ∈ mps, tsx mp < tsx mp' + 2 ^ 31 ∧ tsx mp + jump ≤ tsx mp' + 2 ^ 31

/-- All packets come from one source, and the media packets from a window of it. -/
structure OneSource (ext tsx : Message → Nat) (s : RtpSession) (ds : List (List UInt8)) : Prop where
  one_ssrc : ∀ mp ∈ ds.filterMap rtp_packet, ∀ mp' ∈ ds.filterMap rtp_packet,
    mp.rtp.ssrc = mp'.rtp.ssrc
  window : Window ext (media_packets s.telephone_events_pt ds)
  stamped : Stamped ext tsx (jumps s) (media_packets s.telephone_events_pt ds)

/-! ## The check of a timestamp -/

section

variable {ext tsx : Message → Nat} {s : RtpSession} {jump : Nat} {mps : List Message}
  {last mp : Message}

theorem newer_than (ts1 ts2 : UInt32) :
    RTP_TIMESTAMP_IS_NEWER_THAN ts1 ts2 = true ↔
      (2 ^ 32 - ts2.toNat + ts1.toNat) % 2 ^ 32 < 2 ^ 31 := by
  unfold RTP_TIMESTAMP_IS_NEWER_THAN
  rw [decide_eq_true_eq, UInt32.lt_iff_toNat_lt, UInt32.toNat_sub]
  rfl

theorem strictly_newer_than (ts1 ts2 : UInt32) :
    RTP_TIMESTAMP_IS_STRICTLY_NEWER_THAN ts1 ts2 = true ↔
      (2 ^ 32 - ts2.toNat + ts1.toNat) % 2 ^ 32 < 2 ^ 31 ∧ ts1.toNat ≠ ts2.toNat := by
  unfold RTP_TIMESTAMP_IS_STRICTLY_NEWER_THAN
  rw [Bool.and_eq_true, newer_than, bne_iff_ne, ne_eq, ne_eq, UInt32.toNat_inj]

theorem emit_resyncs (connected : Bool) (s : RtpSession) :
    s.resyncs ≤ (emit connected s).1.resyncs := by
  unfold emit
  split
  · exact Nat.le_succ _
  · exact le_rfl

/-- Where the signal resyncs nothing, it does nothing. -/
theorem emit_quiet {connected : Bool} (h : (emit connected s).1.resyncs = s.resyncs) :
    emit connected s = (s, []) := by
  unfold emit at h ⊢
  split at h
  · exact absurd h (Nat.succ_ne_self _)
  · rename_i hoff
    rw [if_neg hoff]

/-- Once a packet was delivered, exactly those that are not older go on, as long as no signal
resyncs the session. -/
theorem check_timestamp_eq (h : Stamped ext tsx jump mps) (hjump : s.ts_jump.toNat ≤ jump)
    (hlast : last ∈ mps) (hmp : mp ∈ mps) (hts : s.rcv_last_ts = last.rtp.timestamp)
    (hdelivered : s.first_packet_delivered = true)
    (hquiet : (check_timestamp s mp).1.resyncs = s.resyncs) :
    check_timestamp s mp =
      if tsx last ≤ tsx mp then (s, [], true)
      else ({ s with stats := { s.stats with outoftime := s.stats.outoftime + 1 } },
        [(mp, .too_old)], false) := by
  have hnear := h.near mp hmp last hlast
  have hnear' := h.near last hlast mp hmp
  have hstamp := h.stamp mp hmp
  have hstamp' := h.stamp last hlast
  unfold check_timestamp at hquiet ⊢
  rw [if_pos hdelivered] at hquiet ⊢
  split at hquiet
  · rename_i hforward
    have hnew : tsx last ≤ tsx mp := by
      rw [newer_than, UInt32.toNat_add, hts] at hforward
      omega
    rw [if_pos hforward, if_pos hnew, emit_quiet hquiet]
  · rename_i hforward
    rw [if_neg hforward]
    split at hquiet
    · rename_i hold
      have hnew : ¬ tsx last ≤ tsx mp := by
        rw [strictly_newer_than, hts] at hold
        omega
      rw [if_pos hold, if_neg hnew]
      split
      · rename_i hbackward
        rw [if_pos hbackward] at hquiet
        rw [emit_quiet hquiet]
        rfl
      · rfl
    · rename_i hold
      have hnew : tsx last ≤ tsx mp := by
        rw [strictly_newer_than, hts] at hold
        omega
      rw [if_neg hold, if_pos hnew]

end

/-! ## Resyncs -/

section

variable {s : RtpSession} {mp : Message}

theorem lock_ssrc_resyncs (s : RtpSession) (mp : Message) :
    s.resyncs ≤ (lock_ssrc s mp).1.resyncs := by
  unfold lock_ssrc
  split
  · split
    · obtain ⟨count, candidate, heq⟩ := count_candidate_eq s mp.rtp.ssrc
      rw [heq]
      dsimp only
      split
      · exact emit_resyncs s.on_ssrc_changed
          { s with
            inc_same_ssrc_count := count
            inc_ssrc_candidate := candidate
            rcv_last_ts := mp.rtp.timestamp
            rcv_ssrc := mp.rtp.ssrc }
      · exact le_rfl
    · exact le_rfl
  · exact le_rfl

theorem check_timestamp_resyncs (s : RtpSession) (mp : Message) :
    s.resyncs ≤ (check_timestamp s mp).1.resyncs := by
  unfold check_timestamp
  split
  · split
    · exact emit_resyncs _ s
    · split
      · dsimp only
        split
        · exact emit_resyncs _ s
        · exact le_rfl
      · exact le_rfl
  · exact le_rfl

theorem update_statistics_resyncs (s : RtpSession) (seq : UInt16) :
    (update_statistics s seq).resyncs = s.resyncs := by
  obtain ⟨hi, lo, first, heq⟩ := update_statistics_eq s seq
  rw [heq]

theorem check_payload_type_resyncs (s : RtpSession) (paytype : Nat) :
    (check_payload_type s paytype).resyncs = s.resyncs := by
  obtain ⟨pt, jump, permissive, -, heq⟩ := check_payload_type_eq s paytype
  rw [heq]

theorem queue_media_resyncs {r : RtpSession × Fates} (hr : queue_media s mp = .ok r) :
    r.1.resyncs = s.resyncs := by
  obtain ⟨qd, -, hr⟩ := bind_ok hr
  cases hr
  rfl

/-- A telephone event is queued apart. A media packet is checked, and queued if it goes on. -/
theorem sort_packet_cases {r : RtpSession × Fates} (hr : sort_packet s mp = .ok r) :
    ((mp.rtp.paytype : Int) = (update_statistics s mp.rtp.seq_number).telephone_events_pt ∧
        queue_telephone_event (update_statistics s mp.rtp.seq_number) mp = .ok r) ∨
      ((mp.rtp.paytype : Int) ≠ (update_statistics s mp.rtp.seq_number).telephone_events_pt ∧
        ∃ c, check_timestamp (check_payload_type (update_statistics s mp.rtp.seq_number)
            mp.rtp.paytype) mp = c ∧ c.1.resyncs = r.1.resyncs ∧
          ((c.2.2 = true ∧ ∃ p, queue_media c.1 mp = .ok p ∧ r = (p.1, c.2.1 ++ p.2)) ∨
            (c.2.2 = false ∧ r = (c.1, c.2.1)))) := by
  unfold sort_packet at hr
  dsimp only at hr
  split at hr
  · rename_i htev
    exact .inl ⟨htev, hr⟩
  · rename_i hmedia
    refine .inr ⟨hmedia, _, rfl, ?_⟩
    split at hr
    · rename_i hon
      obtain ⟨p, hp, hr⟩ := bind_ok hr
      cases hr
      exact ⟨(queue_media_resyncs hp).symm, .inl ⟨hon, p, hp, rfl⟩⟩
    · rename_i hoff
      cases hr
      exact ⟨rfl, .inr ⟨by simpa using hoff, rfl⟩⟩

theorem sort_packet_resyncs {r : RtpSession × Fates} (hr : sort_packet s mp = .ok r) :
    s.resyncs ≤ r.1.resyncs := by
  rw [← update_statistics_resyncs s mp.rtp.seq_number]
  rcases sort_packet_cases hr with ⟨-, htev⟩ | ⟨-, c, rfl, hsame, -⟩
  · obtain ⟨qd, -, hr⟩ := bind_ok htev
    cases hr
    exact le_rfl
  · rw [← hsame, ← check_payload_type_resyncs _ mp.rtp.paytype]
    exact check_timestamp_resyncs _ mp

theorem parse_resyncs {bytes : List UInt8} {r : RtpSession × Fates}
    (hr : rtp_session_rtp_parse s bytes = .ok r) : s.resyncs ≤ r.1.resyncs := by
  unfold rtp_session_rtp_parse at hr
  split at hr
  · cases hr
    exact le_rfl
  · rename_i mp _
    split at hr
    · split at hr <;> (cases hr; exact le_rfl)
    · unfold parse_packet at hr
      split at hr
      · cases hr
        exact le_rfl
      · have hlock := lock_ssrc_resyncs (count_received s bytes.length) mp
        dsimp only at hr
        split at hr
        · obtain ⟨p, hp, hr⟩ := bind_ok hr
          cases hr
          have hsort := sort_packet_resyncs hp
          exact hlock.trans hsort
        · cases hr
          exact hlock

theorem recv_resyncs {ds : List (List UInt8)} {r : Received}
    (hr : rtp_session_rtp_recv s ds = .ok r) : s.resyncs ≤ r.session.resyncs := by
  induction ds generalizing s r with
  | nil =>
    cases hr
    exact le_rfl
  | cons d ds ih =>
    rcases recv_cases hr with ⟨-, rfl⟩ | ⟨bytes, p, r', -, hp, hr', rfl⟩
    · exact le_rfl
    · have hlater := ih hr'
      exact (parse_resyncs hp).trans hlater

theorem take_telephone_event_resyncs (s : RtpSession) :
    (take_telephone_event s).1.resyncs = s.resyncs := by
  unfold take_telephone_event
  split <;> rfl

theorem take_media_resyncs (s : RtpSession) (ts : UInt32) :
    (take_media s ts).1.resyncs = s.resyncs := by
  unfold take_media
  split <;> rfl

theorem deliver_resyncs (s : RtpSession) (mp : Option Message) :
    (deliver s mp).1.resyncs = s.resyncs := by
  cases mp with
  | none => rfl
  | some mp =>
    obtain ⟨pt, hdeliver⟩ := deliver_some s mp
    rw [hdeliver]
    rfl

theorem read_socket_resyncs {r r' : Receiver} {user_ts : UInt32}
    (hr : read_socket r user_ts = .ok r') : r.session.resyncs ≤ r'.session.resyncs := by
  unfold read_socket at hr
  split at hr
  · cases hr
    exact le_rfl
  · obtain ⟨got, hgot, hr⟩ := bind_ok hr
    cases hr
    have hgrows := recv_resyncs hgot
    exact hgrows

/-- What a call does: it reads the socket, and hands out at most one packet. -/
theorem recvm_cases {r r' : Receiver} {user_ts ts corrective_slide : UInt32}
    (hr : step r (.recvm user_ts ts corrective_slide) = .ok r') :
    ∃ r₁, read_socket r user_ts = .ok r₁ ∧
      r' = (let tev := take_telephone_event r₁.session
        let media := take_media tev.1 ts
        let delivered := deliver media.1 media.2.1
        { r₁ with
          session := delivered.1
          fates := r₁.fates ++ tev.2 ++ media.2.2 ++ delivered.2 }) := by
  unfold step at hr
  dsimp only at hr
  cases hread : read_socket r user_ts with
  | error e =>
    unfold rtp_session_recvm_with_ts at hr
    rw [hread] at hr
    cases hr
  | ok r₁ =>
    rw [recvm_eq hread] at hr
    cases hr
    exact ⟨r₁, rfl, rfl⟩

/-- No step undoes a resync. -/
theorem step_resyncs {r r' : Receiver} {a : Act} (hr : step r a = .ok r') :
    r.session.resyncs ≤ r'.session.resyncs := by
  cases a with
  | arrive d =>
    cases hr
    exact le_rfl
  | resync =>
    cases hr
    exact Nat.le_succ _
  | recvm user_ts ts corrective_slide =>
    obtain ⟨r₁, hread, rfl⟩ := recvm_cases hr
    dsimp only
    rw [deliver_resyncs, take_media_resyncs, take_telephone_event_resyncs]
    exact read_socket_resyncs hread

end

/-! ## The queue in order -/

def Ascending (ext : Message → Nat) (q : List Message) : Prop :=
  q.Pairwise fun m m' => ext m < ext m'

section

variable {ext : Message → Nat} {mps q : List Message} {mp : Message}

theorem rtp_putq_mem {m : Message} (h : m ∈ (rtp_putq q mp).1) : m = mp ∨ m ∈ q := by
  obtain ⟨dup, -, hperm⟩ := rtp_putq_perm q mp
  exact List.mem_cons.mp (hperm.mem_iff.mpr (List.mem_append_right dup h))

theorem rtp_putq_ascending (hwin : Window ext mps) (hmp : mp ∈ mps) (hq : ∀ m ∈ q, m ∈ mps)
    (h : Ascending ext q) : Ascending ext (rtp_putq q mp).1 := by
  rw [rtp_putq_eq hwin hmp hq]
  exact List.pairwise_reverse.mpr (descending_put (List.pairwise_reverse.mpr h))

/-- A packet that is queued keeps the order, and only the oldest can go. -/
theorem queue_packet_keeps {maxrqsz : Int} {r : Queued} (hwin : Window ext mps) (hmp : mp ∈ mps)
    (hq : ∀ m ∈ q, m ∈ mps) (h : Ascending ext q) (hr : queue_packet q maxrqsz mp = .ok r) :
    Ascending ext r.q ∧ ∀ m ∈ r.q, m = mp ∨ m ∈ q := by
  by_cases hdata : HasData mp
  · rw [queue_packet_of_data q maxrqsz hdata] at hr
    cases hgone : discard_oldest maxrqsz (rtp_putq q mp).1 with
    | error e =>
      rw [hgone] at hr
      cases hr
    | ok p =>
      rw [hgone] at hr
      cases hr
      obtain ⟨out, -, hout⟩ := discard_oldest_split hgone
      have hall := rtp_putq_ascending hwin hmp hq h
      rw [hout] at hall
      refine ⟨(List.pairwise_append.mp hall).2.1, fun m hm => rtp_putq_mem ?_⟩
      rw [hout]
      exact List.mem_append_right out hm
  · unfold queue_packet at hr
    rw [if_pos (not_not.mp hdata)] at hr
    cases hr
    exact ⟨h, fun m hm => Or.inr hm⟩

end

/-! ## The invariant -/

/-- The packets that the application got, in order. -/
def delivered (fates : Fates) : List Message :=
  (fates.filter fun f => f.2 = .delivered).map Prod.fst

@[simp] theorem delivered_nil : delivered [] = [] := rfl

@[simp] theorem delivered_append (f f' : Fates) :
    delivered (f ++ f') = delivered f ++ delivered f' := by
  unfold delivered
  rw [List.filter_append, List.map_append]

theorem delivered_all_fated {fate : Fate} (h : fate ≠ .delivered) (mps : List Message) :
    delivered (all_fated fate mps) = [] := by
  unfold delivered all_fated
  rw [List.filter_eq_nil_iff.mpr, List.map_nil]
  intro f hf
  obtain ⟨mp, -, rfl⟩ := List.mem_map.mp hf
  simpa using h

/-- What the session was set up with. -/
def setup (s : RtpSession) : Int × (RtpProfile × Int × Nat) × Nat × Bool :=
  (s.telephone_events_pt, (s.snd_profile, s.snd_pt, s.time_jump), s.recv_buf_size, s.recv_cuts)

/-- The queue holds media packets of the source in order, none older than the last one that
was delivered, and those were delivered in the order of their times. -/
structure Ordered (ext tsx : Message → Nat) (s₀ : RtpSession) (ds : List (List UInt8))
    (s : RtpSession) (out : List Message) : Prop where
  setup : setup s = setup s₀
  jump : s.ts_jump.toNat ≤ jumps s₀
  locked : s.ssrc_set = true → ∀ mp ∈ ds.filterMap rtp_packet, mp.rtp.ssrc = s.rcv_ssrc
  queued : ∀ m ∈ s.rq, m ∈ media_packets s₀.telephone_events_pt ds
  ascending : Ascending ext s.rq
  in_time : out.Pairwise fun m m' => tsx m ≤ tsx m'
  last : s.first_packet_delivered = true → ∃ last ∈ media_packets s₀.telephone_events_pt ds,
    s.rcv_last_ts = last.rtp.timestamp ∧ (∀ m ∈ out, tsx m ≤ tsx last) ∧
      ∀ m ∈ s.rq, tsx last ≤ tsx m
  none : s.first_packet_delivered = false → out = []

section

variable {ext tsx : Message → Nat} {s₀ s : RtpSession} {ds : List (List UInt8)}
  {out : List Message} {mp : Message}

theorem media_of_packet {pt : Int} (h : mp ∈ ds.filterMap rtp_packet)
    (hpt : (mp.rtp.paytype : Int) ≠ pt) : mp ∈ media_packets pt ds :=
  List.mem_filter.mpr ⟨h, by simpa using hpt⟩

theorem packet_of_media {pt : Int} (h : mp ∈ media_packets pt ds) :
    mp ∈ ds.filterMap rtp_packet := (List.mem_filter.mp h).1

theorem setup_received (h : setup s = setup s₀) : received s = received s₀ := by
  simp only [setup, Prod.mk.injEq] at h
  obtain ⟨-, -, hsize, hcuts⟩ := h
  exact received_eq hsize hcuts

theorem setup_jump_limit (h : setup s = setup s₀) :
    jump_limit s s.time_jump = jump_limit s₀ s₀.time_jump := by
  simp only [setup, Prod.mk.injEq] at h
  obtain ⟨-, ⟨hprofile, hpt, hjump⟩, -⟩ := h
  unfold jump_limit rtp_session_time_to_ts
  rw [hprofile, hpt, hjump]

/-- With one source the lock lets every packet through. -/
theorem lock_ssrc_eq (h : Ordered ext tsx s₀ ds s out) (hmp : mp ∈ ds.filterMap rtp_packet) :
    ∃ count, lock_ssrc s mp =
      ({ s with ssrc_set := true, rcv_ssrc := mp.rtp.ssrc, inc_same_ssrc_count := count },
        [], true) := by
  unfold lock_ssrc
  by_cases hset : s.ssrc_set = true
  · have hsame := h.locked hset mp hmp
    rw [if_pos hset, if_neg (not_not.mpr hsame.symm), hsame]
    refine ⟨0, ?_⟩
    rw [← hset]
  · rw [if_neg hset]
    exact ⟨_, rfl⟩

theorem ordered_locked (hsrc : OneSource ext tsx s₀ ds) (h : Ordered ext tsx s₀ ds s out)
    (hmp : mp ∈ ds.filterMap rtp_packet) (count : Int) :
    Ordered ext tsx s₀ ds
      { s with ssrc_set := true, rcv_ssrc := mp.rtp.ssrc, inc_same_ssrc_count := count } out :=
  ⟨h.setup, h.jump, fun _ mp' hmp' => hsrc.one_ssrc mp' hmp' mp hmp, h.queued, h.ascending,
    h.in_time, h.last, h.none⟩

/-- What the invariant reads of a session. -/
def order (s : RtpSession) : (Int × (RtpProfile × Int × Nat) × Nat × Bool) × UInt32 ×
    (Bool × UInt32) × List Message × Bool × UInt32 :=
  (setup s, s.ts_jump, (s.ssrc_set, s.rcv_ssrc), s.rq, s.first_packet_delivered, s.rcv_last_ts)

theorem ordered_of_order {s' : RtpSession} (h : Ordered ext tsx s₀ ds s out)
    (heq : order s' = order s) : Ordered ext tsx s₀ ds s' out := by
  simp only [order, Prod.mk.injEq] at heq
  obtain ⟨hsetup, hjump, ⟨hset, hssrc⟩, hrq, hfirst, hts⟩ := heq
  refine ⟨hsetup.trans h.setup, ?_, ?_, ?_, ?_, h.in_time, ?_, ?_⟩
  · rw [hjump]
    exact h.jump
  · rw [hset, hssrc]
    exact h.locked
  · rw [hrq]
    exact h.queued
  · rw [hrq]
    exact h.ascending
  · rw [hfirst, hts, hrq]
    exact h.last
  · rw [hfirst]
    exact h.none

theorem order_update_statistics (s : RtpSession) (seq : UInt16) :
    order (update_statistics s seq) = order s := by
  obtain ⟨hi, lo, first, heq⟩ := update_statistics_eq s seq
  rw [heq]
  rfl

theorem ordered_check_payload_type (h : Ordered ext tsx s₀ ds s out) (paytype : Nat) :
    Ordered ext tsx s₀ ds (check_payload_type s paytype) out := by
  obtain ⟨pt, jump, permissive, hjump, heq⟩ := check_payload_type_eq s paytype
  rw [heq]
  refine ⟨h.setup, ?_, h.locked, h.queued, h.ascending, h.in_time, h.last, h.none⟩
  rcases hjump with rfl | rfl
  · exact h.jump
  · dsimp only
    rw [setup_jump_limit h.setup]
    exact le_max_right _ _

/-- A media packet that is not older than the last one delivered. -/
theorem queue_media_ordered (hsrc : OneSource ext tsx s₀ ds) (h : Ordered ext tsx s₀ ds s out)
    (hmp : mp ∈ media_packets s₀.telephone_events_pt ds)
    (hnew : ∀ last ∈ media_packets s₀.telephone_events_pt ds, s.first_packet_delivered = true →
      s.rcv_last_ts = last.rtp.timestamp → tsx last ≤ tsx mp)
    {r : RtpSession × Fates} (hr : queue_media s mp = .ok r) :
    Ordered ext tsx s₀ ds r.1 out ∧ delivered r.2 = [] := by
  obtain ⟨qd, hq, hr⟩ := bind_ok hr
  cases hr
  obtain ⟨hasc, hmem⟩ := queue_packet_keeps hsrc.window hmp h.queued h.ascending hq
  obtain ⟨no_data, dup, gone, hfreed, -, -⟩ := queue_packet_accounts hq
  refine ⟨⟨h.setup, h.jump, h.locked, ?_, hasc, h.in_time, ?_, h.none⟩, ?_⟩
  · intro m hm
    rcases hmem m hm with rfl | hm
    · exact hmp
    · exact h.queued m hm
  · intro hfirst
    obtain ⟨last, hlast, hts, hout, hrq⟩ := h.last hfirst
    refine ⟨last, hlast, hts, hout, fun m hm => ?_⟩
    rcases hmem m hm with rfl | hm
    · exact hnew last hlast hfirst hts
    · exact hrq m hm
  · dsimp only
    rw [hfreed, delivered_append, delivered_append, delivered_all_fated (by decide),
      delivered_all_fated (by decide), delivered_all_fated (by decide)]
    rfl

theorem sort_packet_ordered (hsrc : OneSource ext tsx s₀ ds) (h : Ordered ext tsx s₀ ds s out)
    (hmp : mp ∈ ds.filterMap rtp_packet) {r : RtpSession × Fates}
    (hr : sort_packet s mp = .ok r) (hquiet : r.1.resyncs = s.resyncs) :
    Ordered ext tsx s₀ ds r.1 out ∧ delivered r.2 = [] := by
  have h₁ := ordered_of_order h (order_update_statistics s mp.rtp.seq_number)
  have hcases := sort_packet_cases hr
  rw [← update_statistics_resyncs s mp.rtp.seq_number] at hquiet
  generalize update_statistics s mp.rtp.seq_number = s₁ at h₁ hcases hquiet
  have hpt : s₁.telephone_events_pt = s₀.telephone_events_pt := congrArg Prod.fst h₁.setup
  rcases hcases with ⟨-, htev⟩ | ⟨hmedia, c, hc, hsame, hqueued⟩
  · obtain ⟨qd, hq, hr⟩ := bind_ok htev
    cases hr
    obtain ⟨no_data, dup, gone, hfreed, -, -⟩ := queue_packet_accounts hq
    refine ⟨ordered_of_order h₁ rfl, ?_⟩
    dsimp only
    rw [hfreed, delivered_append, delivered_append, delivered_all_fated (by decide),
      delivered_all_fated (by decide), delivered_all_fated (by decide)]
    rfl
  · rw [hpt] at hmedia
    have hmp' := media_of_packet hmp hmedia
    have h₂ := ordered_check_payload_type h₁ mp.rtp.paytype
    rw [← hsame, ← check_payload_type_resyncs s₁ mp.rtp.paytype] at hquiet
    generalize check_payload_type s₁ mp.rtp.paytype = s₂ at h₂ hc hquiet
    by_cases hfirst : s₂.first_packet_delivered = true
    · obtain ⟨last, hlast, hts, -, -⟩ := h₂.last hfirst
      rw [← hc] at hquiet
      rw [check_timestamp_eq hsrc.stamped h₂.jump hlast hmp' hts hfirst hquiet] at hc
      by_cases hold : tsx last ≤ tsx mp
      · rw [if_pos hold] at hc
        subst hc
        obtain ⟨-, p, hp, rfl⟩ := hqueued.resolve_right fun hoff => Bool.false_ne_true hoff.1.symm
        refine queue_media_ordered hsrc h₂ hmp' (fun last' hlast' _ hts' => ?_) hp
        have hsame : tsx last' = tsx last := by
          have hstamp := hsrc.stamped.stamp last hlast
          have hstamp' := hsrc.stamped.stamp last' hlast'
          have hnear := hsrc.stamped.near last hlast last' hlast'
          have hnear' := hsrc.stamped.near last' hlast' last hlast
          rw [hts] at hts'
          rw [hts'] at hstamp
          omega
        omega
      · rw [if_neg hold] at hc
        subst hc
        obtain ⟨-, rfl⟩ := hqueued.resolve_left fun hon => Bool.false_ne_true hon.1
        exact ⟨ordered_of_order h₂ rfl, rfl⟩
    · unfold check_timestamp at hc
      rw [if_neg hfirst] at hc
      subst hc
      obtain ⟨-, p, hp, rfl⟩ := hqueued.resolve_right fun hoff => Bool.false_ne_true hoff.1.symm
      exact queue_media_ordered hsrc h₂ hmp' (fun _ _ hdel _ => absurd hdel hfirst) hp

theorem parse_ordered (hsrc : OneSource ext tsx s₀ ds) (h : Ordered ext tsx s₀ ds s out)
    {bytes : List UInt8} (hd : bytes ∈ ds) {r : RtpSession × Fates}
    (hr : rtp_session_rtp_parse s bytes = .ok r) (hquiet : r.1.resyncs = s.resyncs) :
    Ordered ext tsx s₀ ds r.1 out ∧ delivered r.2 = [] := by
  unfold rtp_session_rtp_parse at hr
  split at hr
  · cases hr
    exact ⟨ordered_of_order h rfl, rfl⟩
  · rename_i mp hmp
    split at hr
    · split at hr
      · cases hr
        exact ⟨ordered_of_order h rfl, rfl⟩
      · cases hr
        exact ⟨ordered_of_order h rfl, rfl⟩
    · rename_i hversion
      have hpacket : mp ∈ ds.filterMap rtp_packet := by
        refine List.mem_filterMap.mpr ⟨bytes, hd, ?_⟩
        unfold rtp_packet
        rw [hmp]
        exact if_pos (by simpa using hversion)
      have h₁ : Ordered ext tsx s₀ ds (count_received s bytes.length) out :=
        ordered_of_order h rfl
      unfold parse_packet at hr
      split at hr
      · cases hr
        exact ⟨ordered_of_order h₁ rfl, rfl⟩
      · obtain ⟨count, hlock⟩ := lock_ssrc_eq h₁ hpacket
        rw [hlock] at hr
        dsimp only at hr
        rw [if_pos rfl] at hr
        obtain ⟨p, hp, hr⟩ := bind_ok hr
        cases hr
        exact sort_packet_ordered hsrc (ordered_locked hsrc h₁ hpacket count) hpacket hp hquiet

theorem recv_ordered (hsrc : OneSource ext tsx s₀ ds) {waiting : List (List UInt8)}
    (hds : ∀ bytes ∈ waiting.filterMap (received s₀), bytes ∈ ds) {r : Received}
    (h : Ordered ext tsx s₀ ds s out) (hr : rtp_session_rtp_recv s waiting = .ok r)
    (hquiet : r.session.resyncs = s.resyncs) :
    Ordered ext tsx s₀ ds r.session out ∧ delivered r.freed = [] := by
  induction waiting generalizing s r with
  | nil =>
    cases hr
    exact ⟨h, rfl⟩
  | cons d waiting ih =>
    rcases recv_cases hr with ⟨-, rfl⟩ | ⟨bytes, p, r', hd, hp, hr', rfl⟩
    · exact ⟨h, rfl⟩
    · rw [setup_received h.setup] at hd
      rw [List.filterMap_cons_some hd] at hds
      -- neither the first packet nor a later one resyncs the session
      have hfirst := parse_resyncs hp
      have hlater := recv_resyncs hr'
      dsimp only at hquiet
      obtain ⟨h₁, hnone⟩ := parse_ordered hsrc h (hds bytes List.mem_cons_self) hp (by omega)
      obtain ⟨h₂, hnone'⟩ :=
        ih (fun b hb => hds b (List.mem_cons_of_mem _ hb)) h₁ hr' (by omega)
      refine ⟨h₂, ?_⟩
      dsimp only
      rw [delivered_append, hnone, hnone']
      rfl

/-! ## A packet for the application -/

/-- Some packets leave the front of the queue. -/
theorem ordered_without {old rest : List Message} (h : Ordered ext tsx s₀ ds s out)
    (hsplit : s.rq = old ++ rest) : Ordered ext tsx s₀ ds { s with rq := rest } out := by
  have hmem : ∀ m ∈ rest, m ∈ s.rq := fun m hm => by
    rw [hsplit]
    exact List.mem_append_right old hm
  have hasc := h.ascending
  rw [hsplit] at hasc
  refine ⟨h.setup, h.jump, h.locked, fun m hm => h.queued m (hmem m hm),
    (List.pairwise_append.mp hasc).2.1, h.in_time, fun hfirst => ?_, h.none⟩
  obtain ⟨last, hlast, hts, hout, hrq⟩ := h.last hfirst
  exact ⟨last, hlast, hts, hout, fun m hm => hrq m (hmem m hm)⟩

theorem deliver_ordered (hsrc : OneSource ext tsx s₀ ds) {old rest : List Message}
    {mp : Option Message} (h : Ordered ext tsx s₀ ds s out)
    (hsplit : s.rq = old ++ (mp.toList ++ rest)) {s' : RtpSession}
    (heq : order s' = order { s with rq := rest }) :
    Ordered ext tsx s₀ ds (deliver s' mp).1 (out ++ mp.toList) ∧
      delivered (deliver s' mp).2 = mp.toList := by
  have hrest : Ordered ext tsx s₀ ds s' out := by
    have hfront : s.rq = (old ++ mp.toList) ++ rest := by rw [hsplit, List.append_assoc]
    exact ordered_of_order (ordered_without h hfront) heq
  cases mp with
  | none => exact ⟨by rwa [Option.toList_none, List.append_nil], rfl⟩
  | some mp =>
    have hqueued : mp ∈ s.rq := by simp [hsplit]
    have hmp := h.queued mp hqueued
    have hrq : s'.rq = rest := congrArg (fun o => o.2.2.2.1) heq
    have hasc := h.ascending
    rw [hsplit] at hasc
    have hafter := (List.pairwise_cons.mp (List.pairwise_append.mp hasc).2.1).1
    have hbefore : ∀ m ∈ out, tsx m ≤ tsx mp := by
      intro m hm
      by_cases hfirst : s.first_packet_delivered = true
      · obtain ⟨last, -, -, hout, hlater⟩ := h.last hfirst
        exact (hout m hm).trans (hlater mp hqueued)
      · rw [h.none (by simpa using hfirst)] at hm
        exact absurd hm List.not_mem_nil
    obtain ⟨pt, hdeliver⟩ := deliver_some s' mp
    rw [hdeliver]
    refine ⟨⟨hrest.setup, hrest.jump, hrest.locked, hrest.queued, hrest.ascending, ?_, fun _ => ?_,
      ?_⟩, rfl⟩
    · refine List.pairwise_append.mpr ⟨h.in_time, List.pairwise_singleton _ _, ?_⟩
      intro m hm m' hm'
      rw [List.mem_singleton.mp hm']
      exact hbefore m hm
    · refine ⟨mp, hmp, rfl, ?_, ?_⟩
      · intro m hm
        rcases List.mem_append.mp hm with hm | hm
        · exact hbefore m hm
        · rw [List.mem_singleton.mp hm]
      · intro m hm
        have hm' : m ∈ rest := by rwa [← hrq]
        exact hsrc.stamped.monotone mp hmp m (hrest.queued m hm) (hafter m hm').le
    · intro hfalse
      cases hfalse

/-- The packet that is due, when the queue is not waited for. -/
theorem take_due_ordered (hsrc : OneSource ext tsx s₀ ds) (h : Ordered ext tsx s₀ ds s out)
    (ts : UInt32) :
    ∃ mp, (take_due s ts).1 = mp ∧ delivered (take_due s ts).2.2 = [] ∧
      ∀ s', order s' = order { s with rq := (take_due s ts).2.1 } →
        Ordered ext tsx s₀ ds (deliver s' mp).1 (out ++ mp.toList) ∧
          delivered (deliver s' mp).2 = mp.toList := by
  obtain ⟨old, hrejected, hsplit⟩ := take_due_split s ts
  refine ⟨_, rfl, ?_, fun s' heq => deliver_ordered hsrc h hsplit heq⟩
  rw [hrejected]
  exact delivered_all_fated (by decide) old

theorem take_media_ordered (hsrc : OneSource ext tsx s₀ ds) (h : Ordered ext tsx s₀ ds s out)
    (ts : UInt32) :
    ∃ mp, (take_media s ts).2.1 = mp ∧ delivered (take_media s ts).2.2 = [] ∧
      Ordered ext tsx s₀ ds (deliver (take_media s ts).1 mp).1 (out ++ mp.toList) ∧
      delivered (deliver (take_media s ts).1 mp).2 = mp.toList := by
  unfold take_media
  split
  · exact ⟨none, rfl, rfl, by rwa [Option.toList_none, List.append_nil], rfl⟩
  · rename_i first rest hsync hrq
    have hfirst := packet_of_media (h.queued first (by rw [hrq]; exact List.mem_cons_self))
    have hsynced : Ordered ext tsx s₀ ds
        { s with recv_sync := false, rcv_ssrc := first.rtp.ssrc } out :=
      ⟨h.setup, h.jump, fun _ mp hmp => hsrc.one_ssrc mp hmp first hfirst, h.queued,
        h.ascending, h.in_time, h.last, h.none⟩
    obtain ⟨mp, hmp, hnone, hdeliver⟩ := take_due_ordered hsrc hsynced ts
    exact ⟨mp, hmp, hnone, hdeliver _ rfl⟩
  · obtain ⟨mp, hmp, hnone, hdeliver⟩ := take_due_ordered hsrc h ts
    exact ⟨mp, hmp, hnone, hdeliver _ rfl⟩

theorem take_telephone_event_ordered (h : Ordered ext tsx s₀ ds s out) :
    Ordered ext tsx s₀ ds (take_telephone_event s).1 out ∧
      delivered (take_telephone_event s).2 = [] := by
  unfold take_telephone_event
  split
  · exact ⟨h, rfl⟩
  · exact ⟨ordered_of_order h rfl, rfl⟩

end

/-! ## Runs -/

section

variable {ext tsx : Message → Nat} {s₀ : RtpSession} {ds : List (List UInt8)}

/-- The invariant of a receiver whose datagrams are received as some of `ds`. -/
def ReceiverOrdered (ext tsx : Message → Nat) (s₀ : RtpSession) (ds : List (List UInt8))
    (r : Receiver) : Prop :=
  Ordered ext tsx s₀ ds r.session (delivered r.fates) ∧
    ∀ bytes ∈ r.socket.filterMap (received s₀), bytes ∈ ds

theorem read_socket_ordered (hsrc : OneSource ext tsx s₀ ds) {r r' : Receiver} {user_ts : UInt32}
    (h : ReceiverOrdered ext tsx s₀ ds r) (hr : read_socket r user_ts = .ok r')
    (hquiet : r'.session.resyncs = r.session.resyncs) : ReceiverOrdered ext tsx s₀ ds r' := by
  unfold read_socket at hr
  split at hr
  · cases hr
    exact h
  · obtain ⟨got, hgot, hr⟩ := bind_ok hr
    cases hr
    have hmarked : Ordered ext tsx s₀ ds
        { r.session with recv_not_started := false, rcv_last_app_ts := user_ts }
        (delivered r.fates) := ordered_of_order h.1 rfl
    obtain ⟨hordered, hnone⟩ := recv_ordered hsrc h.2 hmarked hgot hquiet
    refine ⟨?_, fun bytes hbytes => h.2 bytes ?_⟩
    · dsimp only
      rw [delivered_append, hnone, List.append_nil]
      exact hordered
    · rw [← recv_waiting hgot, List.filterMap_append]
      exact List.mem_append_right _ hbytes

theorem step_ordered (hsrc : OneSource ext tsx s₀ ds) {r r' : Receiver} {a : Act}
    (h : ReceiverOrdered ext tsx s₀ ds r)
    (ha : ∀ bytes ∈ (arrivals [a]).filterMap (received s₀), bytes ∈ ds)
    (hr : step r a = .ok r') (hquiet : r'.session.resyncs = r.session.resyncs) :
    ReceiverOrdered ext tsx s₀ ds r' := by
  cases a with
  | resync =>
    cases hr
    exact absurd hquiet (Nat.succ_ne_self _)
  | arrive d =>
    cases hr
    refine ⟨h.1, fun bytes hbytes => ?_⟩
    dsimp only at hbytes
    rw [List.filterMap_append] at hbytes
    rcases List.mem_append.mp hbytes with hbytes | hbytes
    · exact h.2 bytes hbytes
    · exact ha bytes hbytes
  | recvm user_ts ts corrective_slide =>
    obtain ⟨r₁, hread, rfl⟩ := recvm_cases hr
    dsimp only at hquiet
    rw [deliver_resyncs, take_media_resyncs, take_telephone_event_resyncs] at hquiet
    obtain ⟨hordered, hsocket⟩ := read_socket_ordered hsrc h hread hquiet
    obtain ⟨htev, hnone⟩ := take_telephone_event_ordered hordered
    obtain ⟨mp, hmp, hrejected, hmedia, hout⟩ := take_media_ordered hsrc htev ts
    refine ⟨?_, hsocket⟩
    dsimp only
    rw [delivered_append, delivered_append, delivered_append, hnone, hrejected, hmp, hout,
      List.append_nil, List.append_nil]
    exact hmedia

theorem arrivals_cons (a : Act) (acts : List Act) :
    arrivals (a :: acts) = arrivals [a] ++ arrivals acts := by
  cases a <;> rfl

/-- The resyncs only grow, so a run without one has none in any step. -/
theorem run_ordered (hsrc : OneSource ext tsx s₀ ds) {acts : List Act} {r r' : Receiver}
    (hacts : ∀ bytes ∈ (arrivals acts).filterMap (received s₀), bytes ∈ ds)
    (h : ReceiverOrdered ext tsx s₀ ds r) (hr : run step r acts = .ok r')
    (hquiet : r'.session.resyncs = r.session.resyncs) : ReceiverOrdered ext tsx s₀ ds r' := by
  induction acts generalizing r with
  | nil =>
    cases hr
    exact h
  | cons a acts ih =>
    obtain ⟨r₁, hstep, hrest⟩ := run_cons_inv hr
    have hfirst := step_resyncs hstep
    have hlater : r₁.session.resyncs ≤ r'.session.resyncs :=
      run_keeps (I := fun r => r₁.session.resyncs ≤ r.session.resyncs)
        (fun _ _ _ hs ht => hs.trans (step_resyncs ht)) le_rfl hrest
    rw [arrivals_cons, List.filterMap_append] at hacts
    exact ih (fun b hb => hacts b (List.mem_append_right _ hb))
      (step_ordered hsrc h (fun b hb => hacts b (List.mem_append_left _ hb)) hstep (by omega))
      hrest (by omega)

end

/-- The packets of one source, in whatever order they come and with whatever copies, reach
the application in the order of their timestamps, with each of the three ways to take a
packet from the queue, unless something resyncs the session. -/
theorem packets_are_delivered_in_time_order (ext tsx : Message → Nat) (start : Receiver)
    (hfresh : Fresh start) (hlock : start.session.ssrc_set = false)
    (hfirst : start.session.first_packet_delivered = false) (acts : List Act)
    (hsrc : OneSource ext tsx start.session
      ((arrivals acts).filterMap (received start.session)))
    (r : Receiver) (hrun : run step start acts = .ok r)
    (hquiet : r.session.resyncs = start.session.resyncs) :
    (delivered r.fates).Pairwise fun m m' => tsx m ≤ tsx m' := by
  obtain ⟨hrq, -, -⟩ := hfresh.queues
  obtain ⟨hsocket, -, hfates⟩ := hfresh.socket
  have hstart : ReceiverOrdered ext tsx start.session
      ((arrivals acts).filterMap (received start.session)) start := by
    rw [ReceiverOrdered, hfates, hsocket]
    refine ⟨⟨rfl, le_max_left _ _, ?_, ?_, ?_, List.Pairwise.nil, ?_, fun _ => rfl⟩,
      fun bytes hbytes => absurd hbytes List.not_mem_nil⟩
    · rw [hlock]
      exact fun h => absurd h Bool.false_ne_true
    · rw [hrq]
      exact fun m hm => absurd hm List.not_mem_nil
    · rw [hrq]
      exact List.Pairwise.nil
    · rw [hfirst]
      exact fun h => absurd h Bool.false_ne_true
  exact (run_ordered hsrc (fun bytes hbytes => hbytes) hstart hrun hquiet).1.in_time

/-- Two packets that come in the wrong order across the wrap of their numbers. -/
theorem packets_are_delivered_in_time_order_example :
    ∃ r, run step (receiver rtp_session_init)
        [.arrive [0x80, 0, 0, 0, 0, 0, 0, 200, 0, 0, 0, 7, 9],
          .arrive [0x80, 0, 255, 255, 0, 0, 0, 100, 0, 0, 0, 7, 8], .recvm 0 100 0,
          .recvm 100 200 0] = .ok r ∧
      (delivered r.fates).map (·.data) = [[8], [9]] ∧
      (delivered r.fates).Pairwise fun m m' => m.rtp.timestamp.toNat ≤ m'.rtp.timestamp.toNat := by
  refine ⟨_, rfl, by decide, packets_are_delivered_in_time_order
    (fun m => (m.rtp.seq_number.toNat + 1) % 65536 + 65535) (fun m => m.rtp.timestamp.toNat)
    (receiver rtp_session_init) ⟨⟨rfl, rfl, rfl⟩, ⟨rfl, rfl, rfl⟩, rfl⟩ rfl rfl
    [.arrive [0x80, 0, 0, 0, 0, 0, 0, 200, 0, 0, 0, 7, 9],
      .arrive [0x80, 0, 255, 255, 0, 0, 0, 100, 0, 0, 0, 7, 8], .recvm 0 100 0,
      .recvm 100 200 0] ⟨?_, ⟨?_, ?_⟩, ⟨?_, ?_, ?_⟩⟩ _ rfl rfl⟩
  · decide
  · unfold Numbered
    decide
  · decide
  · decide
  · decide
  · decide

end zonekey_mcu.rtp_session
