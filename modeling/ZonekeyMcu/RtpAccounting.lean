-- No packet is lost without a trace. Each packet that was read from the socket waits in a
-- queue or has left the session with one fate, and the statistics count the fates.
import ZonekeyMcu.RtpReceive

namespace zonekey_mcu.rtp_session

open runs

def fate_count (fate : Fate) (freed : Fates) : Nat := (freed.map Prod.snd).count fate

@[simp] theorem fate_count_nil (fate : Fate) : fate_count fate [] = 0 := rfl

@[simp] theorem fate_count_append (fate : Fate) (f f' : Fates) :
    fate_count fate (f ++ f') = fate_count fate f + fate_count fate f' := by
  unfold fate_count
  rw [List.map_append, List.count_append]

@[simp] theorem fate_count_cons (fate fate' : Fate) (mp : Message) (f : Fates) :
    fate_count fate ((mp, fate') :: f) = fate_count fate f + if fate' = fate then 1 else 0 := by
  unfold fate_count
  rw [List.map_cons, List.count_cons]
  congr 1
  exact if_congr beq_iff_eq rfl rfl

/-- Packets that all go the same way. -/
def all_fated (fate : Fate) (mps : List Message) : Fates := mps.map fun mp => (mp, fate)

@[simp] theorem map_fst_all_fated (fate : Fate) (mps : List Message) :
    (all_fated fate mps).map Prod.fst = mps := by
  unfold all_fated
  rw [List.map_map]
  exact List.map_id mps

@[simp] theorem length_all_fated (fate : Fate) (mps : List Message) :
    (all_fated fate mps).length = mps.length := List.length_map _

@[simp] theorem fate_count_all_fated (fate fate' : Fate) (mps : List Message) :
    fate_count fate (all_fated fate' mps) = if fate' = fate then mps.length else 0 := by
  induction mps with
  | nil => simp [all_fated]
  | cons mp mps ih =>
    rw [all_fated, List.map_cons, fate_count_cons, ← all_fated, ih, List.length_cons]
    split <;> rfl

/-! ## The queue -/

theorem putq_from_last_perm (mp : Message) (q : List Message) :
    (putq_from_last mp q).1.Perm (if (putq_from_last mp q).2 then mp :: q else q) := by
  induction q with
  | nil => exact List.Perm.refl _
  | cons tmp older ih =>
    unfold putq_from_last
    split
    · exact List.Perm.refl _
    · split
      · exact List.Perm.refl _
      · dsimp only
        refine (ih.cons tmp).trans ?_
        split
        · exact List.Perm.swap mp tmp older
        · exact List.Perm.refl _

/-- The packet is in the queue, or it is freed as a duplicate. -/
theorem rtp_putq_perm (q : List Message) (mp : Message) :
    ∃ dup, (rtp_putq q mp).2 = all_fated .duplicate dup ∧
      (mp :: q).Perm (dup ++ (rtp_putq q mp).1) := by
  have hperm := putq_from_last_perm mp q.reverse
  unfold rtp_putq
  dsimp only
  cases hkept : (putq_from_last mp q.reverse).2 with
  | true =>
    rw [hkept, if_pos rfl] at hperm
    refine ⟨[], rfl, ?_⟩
    exact ((hperm.trans (q.reverse_perm.cons mp)).symm).trans (List.reverse_perm _).symm
  | false =>
    rw [hkept, if_neg Bool.false_ne_true] at hperm
    refine ⟨[mp], rfl, ?_⟩
    exact (((List.reverse_perm _).trans hperm).trans q.reverse_perm).symm.cons mp

theorem discard_oldest_split {maxrqsz : Int} {q q' : List Message} {gone : Fates}
    (h : discard_oldest maxrqsz q = .ok (q', gone)) :
    ∃ out, gone = all_fated .pushed_out out ∧ q = out ++ q' := by
  induction q generalizing q' gone with
  | nil =>
    unfold discard_oldest at h
    split at h
    · cases h
    · cases h
      exact ⟨[], rfl, rfl⟩
  | cons tmp q ih =>
    unfold discard_oldest at h
    split at h
    · obtain ⟨⟨q₁, gone₁⟩, hrest, h⟩ := bind_ok h
      cases h
      obtain ⟨out, rfl, rfl⟩ := ih hrest
      exact ⟨tmp :: out, rfl, rfl⟩
    · cases h
      exact ⟨[], rfl, rfl⟩

theorem discard_oldest_ok {maxrqsz : Int} (h : 0 ≤ maxrqsz) (q : List Message) :
    ∃ r, discard_oldest maxrqsz q = .ok r := by
  obtain ⟨n, rfl⟩ := Int.eq_ofNat_of_zero_le h
  exact ⟨_, discard_oldest_eq n q⟩

/-- What becomes of a packet that is put into a queue, and of those it pushes out. -/
theorem queue_packet_accounts {q : List Message} {maxrqsz : Int} {mp : Message} {r : Queued}
    (h : queue_packet q maxrqsz mp = .ok r) :
    ∃ none dup out, r.freed =
        all_fated .no_data none ++ (all_fated .duplicate dup ++ all_fated .pushed_out out) ∧
      (mp :: q).Perm (none ++ (dup ++ (out ++ r.q))) ∧ r.discarded = none.length + out.length := by
  by_cases hdata : HasData mp
  · rw [queue_packet_of_data q maxrqsz hdata] at h
    cases hgone : discard_oldest maxrqsz (rtp_putq q mp).1 with
    | error e =>
      rw [hgone] at h
      cases h
    | ok p =>
      rw [hgone] at h
      cases h
      obtain ⟨dup, hdup, hperm⟩ := rtp_putq_perm q mp
      obtain ⟨out, hout, hq⟩ := discard_oldest_split hgone
      refine ⟨[], dup, out, ?_, ?_, ?_⟩
      · dsimp only
        rw [hdup, hout]
        rfl
      · rw [hq] at hperm
        exact hperm
      · dsimp only
        rw [hout, length_all_fated, List.length_nil, Nat.zero_add]
  · unfold queue_packet at h
    rw [if_pos (not_not.mp hdata)] at h
    cases h
    exact ⟨[mp], [], [], rfl, List.Perm.refl _, rfl⟩

theorem queue_packet_ok {maxrqsz : Int} (h : 0 ≤ maxrqsz) (q : List Message) (mp : Message) :
    ∃ r, queue_packet q maxrqsz mp = .ok r := by
  by_cases hdata : HasData mp
  · obtain ⟨p, hgone⟩ := discard_oldest_ok h (rtp_putq q mp).1
    rw [queue_packet_of_data q maxrqsz hdata, hgone]
    exact ⟨_, rfl⟩
  · unfold queue_packet
    rw [if_pos (not_not.mp hdata)]
    exact ⟨_, rfl⟩

/-- The packets in front of the one in hand are rejected, and the rest stays. -/
theorem getq_loop_split (timestamp : UInt32) (hand : Option Message) (q : List Message) :
    ∃ old, (getq_loop timestamp hand q).2.2 = all_fated .rejected old ∧
      hand.toList ++ q =
        old ++ ((getq_loop timestamp hand q).1.toList ++ (getq_loop timestamp hand q).2.1) := by
  induction q generalizing hand with
  | nil => exact ⟨[], rfl, rfl⟩
  | cons tmp q ih =>
    unfold getq_loop
    split
    · cases hand with
      | none => exact ih (some tmp)
      | some old =>
        dsimp only
        split
        · exact ⟨[], rfl, rfl⟩
        · obtain ⟨olds, hrejected, hsplit⟩ := ih (some tmp)
          refine ⟨old :: olds, ?_, ?_⟩
          · dsimp only
            rw [hrejected]
            rfl
          · exact congrArg (old :: ·) hsplit
    · exact ⟨[], rfl, rfl⟩

theorem take_due_split (s : RtpSession) (ts : UInt32) :
    ∃ old, (take_due s ts).2.2 = all_fated .rejected old ∧
      s.rq = old ++ ((take_due s ts).1.toList ++ (take_due s ts).2.1) := by
  unfold take_due
  split
  · split
    · unfold rtp_getq_permissive
      split
      · exact ⟨[], rfl, by assumption⟩
      · rename_i tmp q hq
        split
        · exact ⟨[], rfl, hq⟩
        · exact ⟨[], rfl, hq⟩
    · exact getq_loop_split ts none s.rq
  · unfold getq
    split
    · exact ⟨[], rfl, by assumption⟩
    · exact ⟨[], rfl, by assumption⟩

/-! ## The session -/

/-- From `s` to `s'` the packets `mps` come in, and the packets of `freed` leave. -/
structure Passes (s s' : RtpSession) (mps : List Message) (freed : Fates) : Prop where
  packets : (mps ++ (s.rq ++ s.tev_rq)).Perm (freed.map Prod.fst ++ (s'.rq ++ s'.tev_rq))
  bad : s'.stats.bad = s.stats.bad + fate_count .bad freed
  discarded : s'.stats.discarded =
    s.stats.discarded + (fate_count .no_data freed + fate_count .pushed_out freed)
  outoftime : s'.stats.outoftime =
    s.stats.outoftime + (fate_count .too_old freed + fate_count .rejected freed)
  packet_recv : s'.stats.packet_recv = s.stats.packet_recv
  stun_events : s'.stun_events = s.stun_events
  max_rq_size : s'.max_rq_size = s.max_rq_size
  received : received s' = received s

/-- What the accounts speak of. -/
def books (s : RtpSession) :
    (List Message × List Message) × rtp_stats_t × List (List UInt8) × Int × Nat × Bool :=
  ((s.rq, s.tev_rq), s.stats, s.stun_events, s.max_rq_size, s.recv_buf_size, s.recv_cuts)

theorem received_eq {s s' : RtpSession} (hsize : s'.recv_buf_size = s.recv_buf_size)
    (hcuts : s'.recv_cuts = s.recv_cuts) : received s' = received s := by
  funext d
  unfold received rtp_session_rtp_recv_abstract
  rw [hsize, hcuts]

theorem passes_of_books {s s' : RtpSession} (h : books s' = books s) : Passes s s' [] [] := by
  simp only [books, Prod.mk.injEq] at h
  obtain ⟨⟨hrq, htev⟩, hstats, hstun, hmax, hsize, hcuts⟩ := h
  refine ⟨?_, ?_, ?_, ?_, ?_, hstun, hmax, received_eq hsize hcuts⟩
  · rw [hrq, htev]
    exact List.Perm.refl _
  · rw [hstats]
    rfl
  · rw [hstats]
    rfl
  · rw [hstats]
    rfl
  · rw [hstats]

theorem perm_swap_front {α : Type} (l l' l'' : List α) :
    (l ++ (l' ++ l'')).Perm (l' ++ (l ++ l'')) := by
  rw [← List.append_assoc, ← List.append_assoc]
  exact List.perm_append_comm.append_right l''

theorem Passes.trans {s s' s'' : RtpSession} {mps mps' : List Message} {freed freed' : Fates}
    (h : Passes s s' mps freed) (h' : Passes s' s'' mps' freed') :
    Passes s s'' (mps ++ mps') (freed ++ freed') := by
  refine ⟨?_, ?_, ?_, ?_, h'.packet_recv.trans h.packet_recv,
    h'.stun_events.trans h.stun_events, h'.max_rq_size.trans h.max_rq_size,
    h'.received.trans h.received⟩
  · rw [List.append_assoc, List.map_append, List.append_assoc]
    have hfirst := (perm_swap_front mps mps' _).trans (h.packets.append_left mps')
    have hthen := (perm_swap_front mps' _ _).trans (h'.packets.append_left (freed.map Prod.fst))
    exact hfirst.trans hthen
  · rw [h'.bad, h.bad, fate_count_append, Nat.add_assoc]
  · rw [h'.discarded, h.discarded, fate_count_append, fate_count_append]
    omega
  · rw [h'.outoftime, h.outoftime, fate_count_append, fate_count_append]
    omega

theorem emit_passes (connected : Bool) (s : RtpSession) :
    Passes s (emit connected s).1 [] (emit connected s).2 := by
  unfold emit rtp_session_resync
  split
  · rw [← all_fated]
    refine ⟨?_, ?_, ?_, ?_, rfl, rfl, rfl, rfl⟩
    · rw [map_fst_all_fated]
      exact List.Perm.refl _
    · simp
    · simp
    · simp
  · exact passes_of_books rfl

theorem update_statistics_passes (s : RtpSession) (seq : UInt16) :
    Passes s (update_statistics s seq) [] [] := by
  obtain ⟨hi, lo, first, heq⟩ := update_statistics_eq s seq
  rw [heq]
  exact passes_of_books rfl

theorem count_bad_passes (s : RtpSession) (mp : Message) :
    Passes s (count_bad s) [mp] [(mp, .bad)] :=
  ⟨List.Perm.refl _, by simp [count_bad], rfl, rfl, rfl, rfl, rfl, rfl⟩

/-- A packet that goes on is still to be queued. -/
theorem lock_ssrc_passes (s : RtpSession) (mp : Message) :
    Passes s (lock_ssrc s mp).1 (if (lock_ssrc s mp).2.2 then [] else [mp])
      (lock_ssrc s mp).2.1 := by
  unfold lock_ssrc
  split
  · split
    · have hcount : Passes s (count_candidate s mp.rtp.ssrc) [] [] := by
        obtain ⟨count, candidate, heq⟩ := count_candidate_eq s mp.rtp.ssrc
        rw [heq]
        exact passes_of_books rfl
      generalize count_candidate s mp.rtp.ssrc = s₁ at hcount
      dsimp only
      split
      · have hlocked : Passes s
            { s₁ with rcv_last_ts := mp.rtp.timestamp, rcv_ssrc := mp.rtp.ssrc } [] [] :=
          hcount.trans (passes_of_books rfl)
        exact hlocked.trans (emit_passes _ _)
      · exact hcount.trans (count_bad_passes s₁ mp)
    · exact passes_of_books rfl
  · exact passes_of_books rfl

theorem check_timestamp_passes (s : RtpSession) (mp : Message) :
    Passes s (check_timestamp s mp).1 (if (check_timestamp s mp).2.2 then [] else [mp])
      (check_timestamp s mp).2.1 := by
  have hold : ∀ s : RtpSession, Passes s
      { s with stats := { s.stats with outoftime := s.stats.outoftime + 1 } } [mp]
      [(mp, .too_old)] := fun s =>
    ⟨List.Perm.refl _, rfl, rfl, by simp, rfl, rfl, rfl, rfl⟩
  unfold check_timestamp
  split
  · split
    · exact emit_passes _ s
    · split
      · dsimp only
        split
        · exact (emit_passes _ s).trans (hold _)
        · exact hold s
      · exact passes_of_books rfl
  · exact passes_of_books rfl

theorem queue_media_passes {s : RtpSession} (h : 0 ≤ s.max_rq_size) (mp : Message) :
    ∃ r, queue_media s mp = .ok r ∧ Passes s r.1 [mp] r.2 := by
  obtain ⟨r, hr⟩ := queue_packet_ok h s.rq mp
  obtain ⟨none, dup, out, hfreed, hperm, hdiscarded⟩ := queue_packet_accounts hr
  unfold queue_media
  rw [hr, ok_bind]
  refine ⟨_, rfl, ?_⟩
  dsimp only
  rw [hfreed]
  refine ⟨?_, ?_, ?_, ?_, rfl, rfl, rfl, rfl⟩
  · have hall := hperm.append_right s.tev_rq
    simp only [List.map_append, map_fst_all_fated, List.append_assoc] at hall ⊢
    exact hall
  · simp
  · simp [hdiscarded]
  · simp

theorem queue_telephone_event_passes {s : RtpSession} (h : 0 ≤ s.max_rq_size) (mp : Message) :
    ∃ r, queue_telephone_event s mp = .ok r ∧ Passes s r.1 [mp] r.2 := by
  obtain ⟨r, hr⟩ := queue_packet_ok h s.tev_rq mp
  obtain ⟨none, dup, out, hfreed, hperm, hdiscarded⟩ := queue_packet_accounts hr
  unfold queue_telephone_event
  rw [hr, ok_bind]
  refine ⟨_, rfl, ?_⟩
  dsimp only
  rw [hfreed]
  refine ⟨?_, ?_, ?_, ?_, rfl, rfl, rfl, rfl⟩
  · have hall := hperm.append_left s.rq
    have hright := perm_swap_front s.rq (none ++ (dup ++ out)) r.q
    simp only [List.map_append, map_fst_all_fated, List.append_assoc] at hright ⊢
    exact ((perm_swap_front [mp] s.rq s.tev_rq).trans hall).trans hright
  · simp
  · simp [hdiscarded]
  · simp

theorem check_payload_type_passes (s : RtpSession) (paytype : Nat) :
    Passes s (check_payload_type s paytype) [] [] := by
  obtain ⟨pt, jump, permissive, -, heq⟩ := check_payload_type_eq s paytype
  rw [heq]
  exact passes_of_books rfl

theorem sort_packet_passes {s : RtpSession} (h : 0 ≤ s.max_rq_size) (mp : Message) :
    ∃ r, sort_packet s mp = .ok r ∧ Passes s r.1 [mp] r.2 := by
  have hstats := update_statistics_passes s mp.rtp.seq_number
  unfold sort_packet
  generalize update_statistics s mp.rtp.seq_number = s₁ at hstats
  have h₁ : 0 ≤ s₁.max_rq_size := by rwa [hstats.max_rq_size]
  dsimp only
  split
  · obtain ⟨r, hr, hpasses⟩ := queue_telephone_event_passes h₁ mp
    exact ⟨r, hr, hstats.trans hpasses⟩
  · have htype := check_payload_type_passes s₁ mp.rtp.paytype
    have hcheck := htype.trans (check_timestamp_passes _ mp)
    generalize check_timestamp (check_payload_type s₁ mp.rtp.paytype) mp = c at hcheck
    obtain ⟨s₂, jumped, goes_on⟩ := c
    dsimp only at hcheck ⊢
    cases goes_on with
    | true =>
      rw [if_pos rfl] at hcheck ⊢
      obtain ⟨r, hr, hpasses⟩ := queue_media_passes (by rwa [hcheck.max_rq_size]) mp
      rw [hr, ok_bind]
      exact ⟨_, rfl, hstats.trans (hcheck.trans hpasses)⟩
    | false =>
      rw [if_neg Bool.false_ne_true] at hcheck ⊢
      exact ⟨_, rfl, hstats.trans hcheck⟩

theorem parse_packet_passes {s : RtpSession} (h : 0 ≤ s.max_rq_size) (mp : Message) :
    ∃ r, parse_packet s mp = .ok r ∧ Passes s r.1 [mp] r.2 := by
  unfold parse_packet
  split
  · exact ⟨_, rfl, count_bad_passes s mp⟩
  · have hlock := lock_ssrc_passes s mp
    generalize lock_ssrc s mp = c at hlock
    obtain ⟨s₁, flushed, goes_on⟩ := c
    dsimp only at hlock ⊢
    cases goes_on with
    | true =>
      rw [if_pos rfl] at hlock ⊢
      obtain ⟨r, hr, hpasses⟩ := sort_packet_passes (by rwa [hlock.max_rq_size]) mp
      rw [hr, ok_bind]
      exact ⟨_, rfl, hlock.trans hpasses⟩
    | false =>
      rw [if_neg Bool.false_ne_true] at hlock ⊢
      exact ⟨_, rfl, hlock⟩

/-! ## The socket -/

/-- The RTP packet in some bytes. -/
def rtp_packet (d : List UInt8) : Option Message := (rtp_message d).filter (·.rtp.version = 2)

/-- How many byte strings are no RTP packets. -/
def foreign (ds : List (List UInt8)) : Nat := (ds.filter fun d => (rtp_packet d).isNone).length

/-- From `s` to `s'` the byte strings `ds` are parsed, and the packets of `freed` leave. -/
structure Reads (s s' : RtpSession) (ds : List (List UInt8)) (freed : Fates) : Prop where
  packets : (ds.filterMap rtp_packet ++ (s.rq ++ s.tev_rq)).Perm
    (freed.map Prod.fst ++ (s'.rq ++ s'.tev_rq))
  bad : s'.stats.bad + s'.stun_events.length =
    s.stats.bad + s.stun_events.length + (fate_count .bad freed + foreign ds)
  discarded : s'.stats.discarded =
    s.stats.discarded + (fate_count .no_data freed + fate_count .pushed_out freed)
  outoftime : s'.stats.outoftime =
    s.stats.outoftime + (fate_count .too_old freed + fate_count .rejected freed)
  packet_recv : s'.stats.packet_recv = s.stats.packet_recv + (ds.filterMap rtp_packet).length
  max_rq_size : s'.max_rq_size = s.max_rq_size
  received : received s' = received s

theorem reads_of_passes {s s' : RtpSession} {freed : Fates} (h : Passes s s' [] freed) :
    Reads s s' [] freed := by
  refine ⟨h.packets, ?_, h.discarded, h.outoftime, h.packet_recv, h.max_rq_size, h.received⟩
  rw [h.bad, h.stun_events]
  have hnone : foreign [] = 0 := rfl
  omega

theorem Reads.trans {s s' s'' : RtpSession} {ds ds' : List (List UInt8)} {freed freed' : Fates}
    (h : Reads s s' ds freed) (h' : Reads s' s'' ds' freed') :
    Reads s s'' (ds ++ ds') (freed ++ freed') := by
  refine ⟨?_, ?_, ?_, ?_, ?_, h'.max_rq_size.trans h.max_rq_size, h'.received.trans h.received⟩
  · rw [List.filterMap_append, List.append_assoc, List.map_append, List.append_assoc]
    have hfirst := (perm_swap_front _ _ _).trans (h.packets.append_left (ds'.filterMap rtp_packet))
    have hthen := (perm_swap_front _ _ _).trans (h'.packets.append_left (freed.map Prod.fst))
    exact hfirst.trans hthen
  · have hforeign : foreign (ds ++ ds') = foreign ds + foreign ds' := by
      unfold foreign
      rw [List.filter_append, List.length_append]
    rw [h'.bad, h.bad, fate_count_append, hforeign]
    omega
  · rw [h'.discarded, h.discarded, fate_count_append, fate_count_append]
    omega
  · rw [h'.outoftime, h.outoftime, fate_count_append, fate_count_append]
    omega
  · rw [h'.packet_recv, h.packet_recv, List.filterMap_append, List.length_append, Nat.add_assoc]

/-- Bytes that are no RTP packet: they are bad, or go to the event queue. -/
theorem reads_foreign {s s' : RtpSession} {d : List UInt8} (hd : rtp_packet d = none)
    (hbooks : s'.rq = s.rq ∧ s'.tev_rq = s.tev_rq ∧ s'.max_rq_size = s.max_rq_size)
    (hreceived : received s' = received s)
    (hstats : s'.stats = { s.stats with bad := s'.stats.bad })
    (hbad : s'.stats.bad + s'.stun_events.length = s.stats.bad + s.stun_events.length + 1) :
    Reads s s' [d] [] := by
  obtain ⟨hrq, htev, hmax⟩ := hbooks
  have hforeign : foreign [d] = 1 := by simp [foreign, hd]
  refine ⟨?_, ?_, ?_, ?_, ?_, hmax, hreceived⟩
  · rw [hrq, htev, List.filterMap_cons_none hd]
    exact List.Perm.refl _
  · rw [hbad, hforeign]
    rfl
  · rw [hstats]
    rfl
  · rw [hstats]
    rfl
  · rw [hstats, List.filterMap_cons_none hd]
    rfl

theorem parse_reads {s : RtpSession} (h : 0 ≤ s.max_rq_size) (d : List UInt8) :
    ∃ r, rtp_session_rtp_parse s d = .ok r ∧ Reads s r.1 [d] r.2 := by
  unfold rtp_session_rtp_parse
  split
  · rename_i hd
    have hnone : rtp_packet d = none := by
      unfold rtp_packet
      rw [hd]
      rfl
    exact ⟨_, rfl, reads_foreign hnone ⟨rfl, rfl, rfl⟩ rfl rfl (Nat.add_right_comm _ _ _)⟩
  · rename_i mp hd
    split
    · rename_i hversion
      have hnone : rtp_packet d = none := by
        unfold rtp_packet
        rw [hd]
        exact if_neg (by simpa using hversion)
      split
      · refine ⟨_, rfl, reads_foreign hnone ⟨rfl, rfl, rfl⟩ rfl rfl ?_⟩
        rw [List.length_append]
        rfl
      · exact ⟨_, rfl, reads_foreign hnone ⟨rfl, rfl, rfl⟩ rfl rfl (Nat.add_right_comm _ _ _)⟩
    · rename_i hversion
      have hsome : rtp_packet d = some mp := by
        unfold rtp_packet
        rw [hd]
        exact if_pos (by simpa using hversion)
      have hforeign : foreign [d] = 0 := by simp [foreign, hsome]
      obtain ⟨r, hr, hpasses⟩ := parse_packet_passes (s := count_received s d.length) h mp
      refine ⟨r, hr, ?_, ?_, hpasses.discarded, hpasses.outoftime, ?_, hpasses.max_rq_size,
        hpasses.received⟩
      · rw [List.filterMap_cons_some hsome]
        exact hpasses.packets
      · rw [hpasses.bad, hpasses.stun_events, hforeign]
        exact Nat.add_right_comm _ _ _
      · rw [hpasses.packet_recv, List.filterMap_cons_some hsome]
        rfl

/-- A datagram that is parsed, and what comes after it. -/
theorem recv_parsed {s : RtpSession} {d bytes : List UInt8} {ds : List (List UInt8)}
    (hd : received s d = some bytes) {p : RtpSession × Fates}
    (hp : rtp_session_rtp_parse s bytes = .ok p) {r : Received}
    (hr : rtp_session_rtp_recv p.1 ds = .ok r) :
    rtp_session_rtp_recv s (d :: ds) =
      .ok { r with freed := p.2 ++ r.freed, taken := d :: r.taken } := by
  unfold rtp_session_rtp_recv
  rw [hd]
  dsimp only
  rw [hp, ok_bind, hr, ok_bind]
  rfl

/-- The first of the datagrams that wait. -/
theorem recv_cases {s : RtpSession} {d : List UInt8} {ds : List (List UInt8)} {r : Received}
    (hr : rtp_session_rtp_recv s (d :: ds) = .ok r) :
    (received s d = none ∧ r = { session := s, freed := [], taken := [d], waiting := ds }) ∨
      ∃ bytes p r', received s d = some bytes ∧ rtp_session_rtp_parse s bytes = .ok p ∧
        rtp_session_rtp_recv p.1 ds = .ok r' ∧
        r = { r' with freed := p.2 ++ r'.freed, taken := d :: r'.taken } := by
  unfold rtp_session_rtp_recv at hr
  split at hr
  · rename_i hd
    cases hr
    exact .inl ⟨hd, rfl⟩
  · rename_i bytes hd
    obtain ⟨p, hp, hr⟩ := bind_ok hr
    obtain ⟨r', hr', hr⟩ := bind_ok hr
    cases hr
    exact .inr ⟨bytes, p, r', hd, hp, hr', rfl⟩

/-- What the socket gave away, and what still waits. -/
theorem recv_waiting {s : RtpSession} {ds : List (List UInt8)} {r : Received}
    (hr : rtp_session_rtp_recv s ds = .ok r) : r.taken ++ r.waiting = ds := by
  induction ds generalizing s r with
  | nil =>
    cases hr
    rfl
  | cons d ds ih =>
    rcases recv_cases hr with ⟨-, rfl⟩ | ⟨bytes, p, r', -, -, hr', rfl⟩
    · rfl
    · exact congrArg (d :: ·) (ih hr')

theorem recv_reads {s : RtpSession} (h : 0 ≤ s.max_rq_size) (ds : List (List UInt8)) :
    ∃ r, rtp_session_rtp_recv s ds = .ok r ∧
      Reads s r.session (r.taken.filterMap (received s)) r.freed := by
  induction ds generalizing s with
  | nil => exact ⟨_, rfl, reads_of_passes (passes_of_books rfl)⟩
  | cons d ds ih =>
    cases hd : received s d with
    | none =>
      unfold rtp_session_rtp_recv
      rw [hd]
      refine ⟨_, rfl, ?_⟩
      rw [List.filterMap_cons_none hd]
      exact reads_of_passes (passes_of_books rfl)
    | some bytes =>
      obtain ⟨p, hparse, hreads⟩ := parse_reads h bytes
      obtain ⟨r, hds, hreads'⟩ := ih (s := p.1) (by rwa [hreads.max_rq_size])
      refine ⟨_, recv_parsed hd hparse hds, ?_⟩
      rw [hreads.received] at hreads'
      rw [List.filterMap_cons_some hd]
      exact hreads.trans hreads'

/-! ## A packet for the application -/

theorem take_telephone_event_passes (s : RtpSession) :
    Passes s (take_telephone_event s).1 [] (take_telephone_event s).2 := by
  unfold take_telephone_event
  split
  · exact passes_of_books rfl
  · rename_i mp q hq
    refine ⟨?_, rfl, rfl, rfl, rfl, rfl, rfl, rfl⟩
    rw [hq]
    exact List.perm_middle

/-- The packet in hand has no fate yet. -/
def Takes (s s' : RtpSession) (mp : Option Message) (rejected : Fates) : Prop :=
  Passes s { s' with rq := mp.toList ++ s'.rq } [] rejected

theorem take_due_takes (s : RtpSession) (ts : UInt32) :
    Takes s
      { s with
        rq := (take_due s ts).2.1
        stats := { s.stats with
          outoftime := s.stats.outoftime + (take_due s ts).2.2.length } }
      (take_due s ts).1 (take_due s ts).2.2 := by
  obtain ⟨old, hrejected, hsplit⟩ := take_due_split s ts
  rw [hrejected]
  refine ⟨?_, ?_, ?_, ?_, rfl, rfl, rfl, rfl⟩
  · rw [map_fst_all_fated, hsplit, List.append_assoc]
    exact List.Perm.refl _
  · simp
  · simp
  · simp

theorem take_media_takes (s : RtpSession) (ts : UInt32) :
    Takes s (take_media s ts).1 (take_media s ts).2.1 (take_media s ts).2.2 := by
  have hdue : ∀ s₁ : RtpSession, books s₁ = books s → Takes s
      { s₁ with
        rq := (take_due s₁ ts).2.1
        stats := { s₁.stats with
          outoftime := s₁.stats.outoftime + (take_due s₁ ts).2.2.length } }
      (take_due s₁ ts).1 (take_due s₁ ts).2.2 := by
    intro s₁ hs₁
    have hbooks := passes_of_books hs₁
    exact hbooks.trans (take_due_takes s₁ ts)
  unfold take_media
  split
  · exact passes_of_books rfl
  · exact hdue { s with recv_sync := false, rcv_ssrc := _ } rfl
  · exact hdue s rfl

theorem deliver_passes {s s' : RtpSession} {mp : Option Message} {rejected : Fates}
    (h : Takes s s' mp rejected) :
    Passes s (deliver s' mp).1 [] (rejected ++ (deliver s' mp).2) := by
  cases mp with
  | none =>
    unfold deliver
    rw [List.append_nil]
    exact h
  | some mp =>
    obtain ⟨pt, hdeliver⟩ := deliver_some s' mp
    rw [hdeliver]
    have hout : Passes { s' with rq := (some mp).toList ++ s'.rq }
        { count_delivered { s' with rcv_pt := pt } mp with
          rcv_last_ts := mp.rtp.timestamp
          first_packet_delivered := true } [] [(mp, .delivered)] :=
      ⟨List.Perm.refl _, rfl, rfl, rfl, rfl, rfl, rfl, rfl⟩
    exact h.trans hout

/-! ## Runs -/

/-- A receiver before its first datagram. -/
structure Fresh (r : Receiver) : Prop where
  queues : r.session.rq = [] ∧ r.session.tev_rq = [] ∧ r.session.stun_events = []
  socket : r.socket = [] ∧ r.read = [] ∧ r.fates = []
  stats : r.session.stats = ⟨0, 0, 0, 0, 0, 0⟩

theorem step_reads {s₀ : RtpSession} (h : 0 ≤ s₀.max_rq_size) {r : Receiver} (a : Act)
    (hr : Reads s₀ r.session (r.read.filterMap (received s₀)) r.fates) :
    ∃ r', step r a = .ok r' ∧ Reads s₀ r'.session (r'.read.filterMap (received s₀)) r'.fates ∧
      r'.read ++ r'.socket = r.read ++ r.socket ++ arrivals [a] := by
  cases a with
  | arrive d => exact ⟨_, rfl, hr, (List.append_assoc _ _ _).symm⟩
  | resync =>
    refine ⟨_, rfl, ?_, (List.append_nil _).symm⟩
    have hall := hr.trans (reads_of_passes (emit_passes true r.session))
    rw [List.append_nil] at hall
    exact hall
  | recvm user_ts ts corrective_slide =>
    have hread : ∃ r', read_socket r user_ts = .ok r' ∧
        Reads s₀ r'.session (r'.read.filterMap (received s₀)) r'.fates ∧
        r'.read ++ r'.socket = r.read ++ r.socket := by
      unfold read_socket
      split
      · exact ⟨r, rfl, hr, rfl⟩
      · have hmarked : Reads s₀
            { r.session with recv_not_started := false, rcv_last_app_ts := user_ts }
            (r.read.filterMap (received s₀)) r.fates := by
          have hbooks : Passes r.session
              { r.session with recv_not_started := false, rcv_last_app_ts := user_ts } [] [] :=
            passes_of_books rfl
          have hall := hr.trans (reads_of_passes hbooks)
          rwa [List.append_nil, List.append_nil] at hall
        obtain ⟨got, hgot, hreads⟩ := recv_reads (by rwa [hmarked.max_rq_size]) r.socket
        rw [hgot, ok_bind]
        rw [hmarked.received] at hreads
        refine ⟨_, rfl, ?_, ?_⟩
        · dsimp only
          rw [List.filterMap_append]
          exact hmarked.trans hreads
        · dsimp only
          rw [List.append_assoc, recv_waiting hgot]
    obtain ⟨r', hr', hreads, hsocket⟩ := hread
    have htev := take_telephone_event_passes r'.session
    have hmedia := deliver_passes (take_media_takes (take_telephone_event r'.session).1 ts)
    have hall := hreads.trans (reads_of_passes (htev.trans hmedia))
    rw [List.append_nil, ← List.append_assoc, ← List.append_assoc] at hall
    unfold step
    dsimp only
    rw [recvm_eq hr']
    exact ⟨_, rfl, hall, hsocket.trans (List.append_nil _).symm⟩

theorem run_reads {s₀ : RtpSession} (h : 0 ≤ s₀.max_rq_size) (acts : List Act) {r : Receiver}
    (hr : Reads s₀ r.session (r.read.filterMap (received s₀)) r.fates) :
    ∃ r', run step r acts = .ok r' ∧
      Reads s₀ r'.session (r'.read.filterMap (received s₀)) r'.fates ∧
      r'.read ++ r'.socket = r.read ++ r.socket ++ arrivals acts := by
  induction acts generalizing r with
  | nil => exact ⟨r, rfl, hr, (List.append_nil _).symm⟩
  | cons a acts ih =>
    obtain ⟨r₁, hstep, hreads, hsocket⟩ := step_reads h a hr
    obtain ⟨r', hrun, hreads', hsocket'⟩ := ih hreads
    refine ⟨r', by rwa [run_cons_ok acts hstep], hreads', ?_⟩
    rw [hsocket', hsocket, List.append_assoc]
    cases a <;> rfl

/-- A session whose limit is not negative never hangs. Every datagram that came waits in the
socket or was taken from it. Every RTP packet that was received is in a queue or has left with
one fate, and the statistics are the numbers of the fates. An empty datagram counts nowhere. -/
theorem every_packet_is_accounted_for (start : Receiver) (hfresh : Fresh start)
    (hmax : 0 ≤ start.session.max_rq_size) (acts : List Act) :
    ∃ r, run step start acts = .ok r ∧ r.read ++ r.socket = arrivals acts ∧
      ((r.read.filterMap (received start.session)).filterMap rtp_packet).Perm
        (r.fates.map Prod.fst ++ (r.session.rq ++ r.session.tev_rq)) ∧
      r.session.stats.packet_recv =
        ((r.read.filterMap (received start.session)).filterMap rtp_packet).length ∧
      r.session.stats.bad + r.session.stun_events.length =
        fate_count .bad r.fates + foreign (r.read.filterMap (received start.session)) ∧
      r.session.stats.discarded =
        fate_count .no_data r.fates + fate_count .pushed_out r.fates ∧
      r.session.stats.outoftime =
        fate_count .too_old r.fates + fate_count .rejected r.fates := by
  obtain ⟨hrq, htev, hstun⟩ := hfresh.queues
  obtain ⟨hsocket, hread, hfates⟩ := hfresh.socket
  have hstart : Reads start.session start.session
      (start.read.filterMap (received start.session)) start.fates := by
    rw [hread, hfates]
    exact reads_of_passes (passes_of_books rfl)
  obtain ⟨r, hrun, hreads, harr⟩ := run_reads hmax acts hstart
  have hpackets := hreads.packets
  have hbad := hreads.bad
  have hdiscarded := hreads.discarded
  have houtoftime := hreads.outoftime
  have hrecv := hreads.packet_recv
  rw [hrq, htev, List.append_nil, List.append_nil] at hpackets
  rw [hstun] at hbad
  rw [hfresh.stats] at hbad hdiscarded houtoftime hrecv
  dsimp only [List.length_nil] at hbad hdiscarded houtoftime hrecv
  rw [hread, hsocket, List.nil_append, List.nil_append] at harr
  exact ⟨r, hrun, harr, hpackets, by omega, by omega, by omega, by omega⟩

/-- A packet, its copy, two bytes that are no packet, and an empty datagram, behind which the
copy waits for another call. -/
theorem every_packet_is_accounted_for_example :
    ∃ r, run step (receiver rtp_session_init)
        [.arrive [0x80, 0, 0, 1, 0, 0, 0, 0, 0, 0, 0, 7, 9], .arrive [0x80, 0], .arrive [],
          .arrive [0x80, 0, 0, 1, 0, 0, 0, 0, 0, 0, 0, 7, 9], .recvm 0 0 0] = .ok r ∧
      r.read ++ r.socket = arrivals
        [.arrive [0x80, 0, 0, 1, 0, 0, 0, 0, 0, 0, 0, 7, 9], .arrive [0x80, 0], .arrive [],
          .arrive [0x80, 0, 0, 1, 0, 0, 0, 0, 0, 0, 0, 7, 9], .recvm 0 0 0] ∧
      ((r.read.filterMap (received rtp_session_init)).filterMap rtp_packet).Perm
        (r.fates.map Prod.fst ++ (r.session.rq ++ r.session.tev_rq)) ∧
      r.session.stats.packet_recv =
        ((r.read.filterMap (received rtp_session_init)).filterMap rtp_packet).length ∧
      r.session.stats.bad + r.session.stun_events.length =
        fate_count .bad r.fates + foreign (r.read.filterMap (received rtp_session_init)) ∧
      r.session.stats.discarded =
        fate_count .no_data r.fates + fate_count .pushed_out r.fates ∧
      r.session.stats.outoftime =
        fate_count .too_old r.fates + fate_count .rejected r.fates :=
  every_packet_is_accounted_for _ ⟨⟨rfl, rfl, rfl⟩, ⟨rfl, rfl, rfl⟩, rfl⟩ (by decide) _

end zonekey_mcu.rtp_session
