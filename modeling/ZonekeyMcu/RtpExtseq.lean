-- The extended sequence number, which the receiver reports are made from. It is exact while
-- no packet from before a wrap comes after it. One that does puts it a cycle ahead for good.
import ZonekeyMcu.RtpAccounting

namespace zonekey_mcu.rtp_session

/-- `hwrcv_extseq`. -/
def extseq (s : RtpSession) : Nat := s.extseq_hi.toNat * 65536 + s.extseq_lo.toNat

/-- A packet of the same cycle as the newest, or the first of the next cycle. -/
def Follows (newest e : Nat) : Prop :=
  (e / 65536 = newest / 65536 ∧ (e % 65536 < 200 → newest % 65536 ≤ 65336)) ∨
    (e / 65536 = newest / 65536 + 1 ∧ e % 65536 < 200 ∧ 65336 < newest % 65536)

/-- A packet from the end of the cycle before that of the newest. -/
def LateWrap (newest e : Nat) : Prop :=
  e / 65536 + 1 = newest / 65536 ∧ 65336 < e % 65536 ∧ newest % 65536 < 199

/-- Each packet follows the newest of those before it. -/
def AllFollow : Nat → List Nat → Prop
  | _, [] => True
  | newest, e :: es => Follows newest e ∧ AllFollow (max newest e) es

instance (newest e : Nat) : Decidable (Follows newest e) := inferInstanceAs (Decidable (_ ∨ _))

instance (newest e : Nat) : Decidable (LateWrap newest e) := inferInstanceAs (Decidable (_ ∧ _))

instance instDecidableAllFollow : (newest : Nat) → (es : List Nat) → Decidable (AllFollow newest es)
  | _, [] => inferInstanceAs (Decidable True)
  | newest, e :: es =>
    have := instDecidableAllFollow (max newest e) es
    inferInstanceAs (Decidable (_ ∧ _))

section

variable {s : RtpSession} {newest e cycles : Nat} {seq : UInt16}

/-- The two numbers that a step compares, and the register after it. -/
theorem extseq_update (s : RtpSession) (seq : UInt16) :
    extseq (update_extseq s seq) =
      if s.extseq_lo.toNat < seq.toNat then s.extseq_hi.toNat * 65536 + seq.toNat
      else if seq.toNat < 200 ∧ 65336 < s.extseq_lo.toNat then
        (s.extseq_hi.toNat + 1) % 65536 * 65536 + seq.toNat
      else extseq s := by
  have h200 : (200 : UInt16).toNat = 200 := rfl
  have h65336 : (65336 : UInt16).toNat = 65336 := rfl
  unfold update_extseq
  simp only [UInt16.lt_iff_toNat_lt, h200, h65336]
  split_ifs
  · rfl
  · unfold extseq
    rw [UInt16.toNat_add]
    rfl
  · rfl

/-- The register alone decides what a step makes of it. -/
theorem extseq_update_congr {s' : RtpSession} (h : extseq s = extseq s') (seq : UInt16) :
    extseq (update_extseq s seq) = extseq (update_extseq s' seq) := by
  have hboth := h
  unfold extseq at hboth
  have hlo := s.extseq_lo.toNat_lt
  have hlo' := s'.extseq_lo.toNat_lt
  have hsame : s.extseq_lo.toNat = s'.extseq_lo.toNat := by omega
  have hsame' : s.extseq_hi.toNat = s'.extseq_hi.toNat := by omega
  rw [extseq_update, extseq_update, h, hsame, hsame']

theorem extseq_lo_eq (h : extseq s = (newest + cycles * 65536) % 2 ^ 32) :
    s.extseq_lo.toNat = newest % 65536 ∧
      s.extseq_hi.toNat = (newest / 65536 + cycles) % 65536 := by
  unfold extseq at h
  have hlo := s.extseq_lo.toNat_lt
  have hhi := s.extseq_hi.toNat_lt
  omega

theorem extseq_follows (h : extseq s = (newest + cycles * 65536) % 2 ^ 32)
    (hseq : seq.toNat = e % 65536) (hfollows : Follows newest e) :
    extseq (update_extseq s seq) = (max newest e + cycles * 65536) % 2 ^ 32 := by
  obtain ⟨hlo, hhi⟩ := extseq_lo_eq h
  rw [extseq_update, hlo, hhi, hseq]
  rcases hfollows with ⟨hcycle, hnot⟩ | ⟨hcycle, hlow, hhigh⟩
  · by_cases hlt : newest % 65536 < e % 65536
    · rw [if_pos hlt, Nat.max_eq_right (by omega)]
      omega
    · rw [if_neg hlt, if_neg (by omega), Nat.max_eq_left (by omega)]
      exact h
  · rw [if_neg (by omega), if_pos ⟨hlow, hhigh⟩, Nat.max_eq_right (by omega)]
    omega

/-- A packet from before the wrap, and the next one: the register counts the wrap again. -/
theorem extseq_late (h : extseq s = (newest + cycles * 65536) % 2 ^ 32) {late next : UInt16}
    (hlate : late.toNat = e % 65536) (hwrap : LateWrap newest e)
    (hnext : next.toNat = (newest + 1) % 65536) :
    extseq (update_extseq (update_extseq s late) next) =
      (newest + 1 + (cycles + 1) * 65536) % 2 ^ 32 := by
  obtain ⟨hlo, hhi⟩ := extseq_lo_eq h
  obtain ⟨hcycle, hhigh, hlow⟩ := hwrap
  have hfirst : update_extseq s late = { s with extseq_lo := late } := by
    unfold update_extseq
    rw [if_pos]
    rw [UInt16.lt_iff_toNat_lt, hlo, hlate]
    omega
  rw [hfirst, extseq_update, hnext, hlate, if_neg (by omega), if_pos (by omega), hhi]
  omega

end

/-! ## Datagrams -/

section

variable {s : RtpSession} {ssrc : UInt32}

/-- A session that heard the source `ssrc` alone, and can queue packets. -/
structure Hears (ssrc : UInt32) (s : RtpSession) : Prop where
  locked : s.ssrc_set = true → s.rcv_ssrc = ssrc
  max_rq_size : 0 ≤ s.max_rq_size

/-- What the lock and the register are about. -/
def registers (s : RtpSession) : (Bool × UInt32) × Int × Nat :=
  ((s.ssrc_set, s.rcv_ssrc), s.max_rq_size, extseq s)

theorem hears_of_registers {s' : RtpSession} (h : Hears ssrc s) (heq : registers s' = registers s) :
    Hears ssrc s' ∧ extseq s' = extseq s := by
  simp only [registers, Prod.mk.injEq] at heq
  obtain ⟨⟨hset, hssrc⟩, hmax, hext⟩ := heq
  refine ⟨⟨?_, ?_⟩, hext⟩
  · rw [hset, hssrc]
    exact h.locked
  · rw [hmax]
    exact h.max_rq_size

theorem registers_emit (connected : Bool) (s : RtpSession) :
    registers (emit connected s).1 = registers s := by
  unfold emit rtp_session_resync
  split <;> rfl

theorem registers_check_timestamp (s : RtpSession) (mp : Message) :
    registers (check_timestamp s mp).1 = registers s := by
  unfold check_timestamp
  split
  · split
    · exact registers_emit _ s
    · split
      · dsimp only
        split
        · exact registers_emit s.on_timestamp_jump s
        · rfl
      · rfl
  · rfl

theorem registers_check_payload_type (s : RtpSession) (paytype : Nat) :
    registers (check_payload_type s paytype) = registers s := by
  obtain ⟨pt, jump, permissive, -, heq⟩ := check_payload_type_eq s paytype
  rw [heq]
  rfl

/-- After the lock a packet moves the register, and whatever queue it goes to does not. -/
theorem sort_packet_extseq (h : Hears ssrc s) (mp : Message) :
    ∃ r, sort_packet s mp = .ok r ∧ Hears ssrc r.1 ∧
      extseq r.1 = extseq (update_extseq s mp.rtp.seq_number) := by
  have hstats : Hears ssrc (update_statistics s mp.rtp.seq_number) ∧
      extseq (update_statistics s mp.rtp.seq_number) =
        extseq (update_extseq s mp.rtp.seq_number) := by
    have hkept : Hears ssrc (update_extseq s mp.rtp.seq_number) := by
      obtain ⟨hlocked, hmax⟩ := h
      unfold update_extseq
      split_ifs <;> exact ⟨hlocked, hmax⟩
    unfold update_statistics
    dsimp only
    split
    · exact hears_of_registers hkept rfl
    · exact ⟨hkept, rfl⟩
  obtain ⟨hears, hext⟩ := hstats
  rw [← hext]
  unfold sort_packet
  generalize update_statistics s mp.rtp.seq_number = s₁ at hears
  dsimp only
  split
  · obtain ⟨r, hr⟩ := queue_packet_ok hears.max_rq_size s₁.tev_rq mp
    unfold queue_telephone_event
    rw [hr, ok_bind]
    exact ⟨_, rfl, hears_of_registers hears rfl⟩
  · obtain ⟨hears', hext'⟩ :=
      hears_of_registers hears (registers_check_payload_type s₁ mp.rtp.paytype)
    have hcheck := hears_of_registers hears' (registers_check_timestamp _ mp)
    rw [hext'] at hcheck
    generalize check_timestamp (check_payload_type s₁ mp.rtp.paytype) mp = c at hcheck
    obtain ⟨s₂, jumped, goes_on⟩ := c
    dsimp only at hcheck ⊢
    split
    · obtain ⟨r, hr⟩ := queue_packet_ok hcheck.1.max_rq_size s₂.rq mp
      unfold queue_media
      rw [hr, ok_bind]
      obtain ⟨hheard, hext⟩ := @hears_of_registers _ _
        { s₂ with
          rq := r.q
          stats := { s₂.stats with discarded := s₂.stats.discarded + r.discarded } }
        hcheck.1 rfl
      exact ⟨_, rfl, hheard, hext.trans hcheck.2⟩
    · exact ⟨_, rfl, hcheck⟩

theorem parse_extseq (h : Hears ssrc s) {d : List UInt8} {mp : Message}
    (hd : rtp_packet d = some mp) (hssrc : mp.rtp.ssrc = ssrc)
    (hcc : 4 * mp.rtp.cc ≤ mp.data.length) :
    ∃ r, rtp_session_rtp_parse s d = .ok r ∧ Hears ssrc r.1 ∧
      extseq r.1 = extseq (update_extseq s mp.rtp.seq_number) := by
  obtain ⟨hmessage, hversion⟩ := Option.filter_eq_some_iff.mp hd
  unfold rtp_session_rtp_parse
  rw [hmessage]
  dsimp only
  rw [if_neg (not_not.mpr (by simpa using hversion))]
  unfold parse_packet
  rw [if_neg (by omega)]
  have hlock : ∃ s₁, lock_ssrc (count_received s d.length) mp = (s₁, [], true) ∧
      Hears ssrc s₁ ∧ s₁.extseq_lo = s.extseq_lo ∧ s₁.extseq_hi = s.extseq_hi := by
    unfold lock_ssrc
    by_cases hset : (count_received s d.length).ssrc_set = true
    · have hsame : (count_received s d.length).rcv_ssrc = mp.rtp.ssrc := by
        rw [hssrc]
        exact h.locked hset
      rw [if_pos hset, if_neg (not_not.mpr hsame)]
      exact ⟨_, rfl, ⟨h.locked, h.max_rq_size⟩, rfl, rfl⟩
    · rw [if_neg hset]
      exact ⟨_, rfl, ⟨fun _ => hssrc, h.max_rq_size⟩, rfl, rfl⟩
  obtain ⟨s₁, hlocked, hears, hlo, hhi⟩ := hlock
  obtain ⟨r, hr, hears', hext⟩ := sort_packet_extseq hears mp
  rw [hlocked]
  dsimp only
  rw [if_pos rfl, hr, ok_bind]
  refine ⟨_, rfl, hears', ?_⟩
  rw [hext, extseq_update, extseq_update, hlo, hhi]
  unfold extseq
  rw [hlo, hhi]

theorem parse_received (h : Hears ssrc s) {bytes : List UInt8} {p : RtpSession × Fates}
    (hp : rtp_session_rtp_parse s bytes = .ok p) : received p.1 = received s := by
  obtain ⟨p', hp', hreads⟩ := parse_reads h.max_rq_size bytes
  rw [hp] at hp'
  cases hp'
  exact hreads.received

/-- The datagrams of packets with the extended numbers `es`, as the session receives them. -/
inductive Numbers (s : RtpSession) (ssrc : UInt32) : List (List UInt8) → List Nat → Prop
  | nil : Numbers s ssrc [] []
  | cons {d bytes : List UInt8} {ds : List (List UInt8)} {e : Nat} {es : List Nat}
      {mp : Message} :
      received s d = some bytes → rtp_packet bytes = some mp → mp.rtp.ssrc = ssrc →
      4 * mp.rtp.cc ≤ mp.data.length → mp.rtp.seq_number.toNat = e % 65536 →
      Numbers s ssrc ds es → Numbers s ssrc (d :: ds) (e :: es)

/-- The packets are parsed, whatever comes after them. -/
theorem recv_extseq {s₀ : RtpSession} {ds : List (List UInt8)} {es : List Nat}
    (hds : Numbers s₀ ssrc ds es) (ds' : List (List UInt8)) :
    ∀ {s : RtpSession} {newest cycles : Nat}, received s = received s₀ → Hears ssrc s →
      extseq s = (newest + cycles * 65536) % 2 ^ 32 → AllFollow newest es →
      ∃ s', received s' = received s₀ ∧ Hears ssrc s' ∧
        extseq s' = (es.foldl max newest + cycles * 65536) % 2 ^ 32 ∧
        ∀ r', rtp_session_rtp_recv s' ds' = .ok r' →
          ∃ r, rtp_session_rtp_recv s (ds ++ ds') = .ok r ∧ r.session = r'.session := by
  induction hds with
  | nil =>
    intro s newest cycles hreceived hears hext _
    exact ⟨s, hreceived, hears, hext, fun r' hr' => ⟨r', hr', rfl⟩⟩
  | cons hd hpacket hssrc hcc hseq _ ih =>
    intro s newest cycles hreceived hears hext hall
    obtain ⟨p, hp, hears₁, hext₁⟩ := parse_extseq hears hpacket hssrc hcc
    rw [extseq_follows hext hseq hall.1] at hext₁
    have hreceived₁ := (parse_received hears hp).trans hreceived
    obtain ⟨s', hreceived', hears', hext', hrest⟩ := ih hreceived₁ hears₁ hext₁ hall.2
    refine ⟨s', hreceived', hears', hext', fun r' hr' => ?_⟩
    obtain ⟨r, hr, hsession⟩ := hrest r' hr'
    exact ⟨_, recv_parsed (by rwa [hreceived]) hp hr, hsession⟩

end

/-- The register of a new session is the number of the newest packet, while each packet
follows. Then comes one from before the last wrap, and the next in order, and from there on
the register is a whole cycle ahead, however well the packets come. -/
theorem a_late_packet_costs_a_cycle (s : RtpSession) (ssrc : UInt32) (hears : Hears ssrc s)
    (hnew : extseq s = 0) (ds after : List (List UInt8)) (late next : List UInt8)
    (es es' : List Nat) (e : Nat) (hds : Numbers s ssrc ds es) (hall : AllFollow 0 es)
    (hlate : Numbers s ssrc [late, next] [e, es.foldl max 0 + 1])
    (hwrap : LateWrap (es.foldl max 0) e) (hafter : Numbers s ssrc after es')
    (hall' : AllFollow (es.foldl max 0 + 1) es') :
    (∃ r, rtp_session_rtp_recv s ds = .ok r ∧
        extseq r.session = es.foldl max 0 % 2 ^ 32) ∧
      ∃ r, rtp_session_rtp_recv s (ds ++ ([late, next] ++ after)) = .ok r ∧
        extseq r.session = (es'.foldl max (es.foldl max 0 + 1) + 65536) % 2 ^ 32 := by
  have hzero : extseq s = (0 + 0 * 65536) % 2 ^ 32 := hnew
  constructor
  · obtain ⟨s₁, -, -, hext₁, hread⟩ := recv_extseq hds [] rfl hears hzero hall
    obtain ⟨r, hr, hsession⟩ := hread _ rfl
    rw [List.append_nil] at hr
    refine ⟨r, hr, ?_⟩
    rw [hsession]
    dsimp only
    rw [hext₁]
    omega
  · obtain ⟨s₁, hreceived₁, hears₁, hext₁, hread⟩ :=
      recv_extseq hds ([late, next] ++ after) rfl hears hzero hall
    obtain - | ⟨hd, hpacket, hssrc, hcc, hseq, hrest⟩ := hlate
    obtain - | ⟨hd', hpacket', hssrc', hcc', hseq', -⟩ := hrest
    obtain ⟨p₂, hp₂, hears₂, hext₂⟩ := parse_extseq hears₁ hpacket hssrc hcc
    have hreceived₂ := (parse_received hears₁ hp₂).trans hreceived₁
    obtain ⟨p₃, hp₃, hears₃, hext₃⟩ := parse_extseq hears₂ hpacket' hssrc' hcc'
    have hreceived₃ := (parse_received hears₂ hp₃).trans hreceived₂
    rw [extseq_update_congr hext₂, extseq_late hext₁ hseq hwrap hseq'] at hext₃
    obtain ⟨s₄, -, -, hext₄, hread'⟩ := recv_extseq hafter [] hreceived₃ hears₃ hext₃ hall'
    obtain ⟨r', hr', hsession'⟩ := hread' _ rfl
    rw [List.append_nil] at hr'
    have hnext := recv_parsed (by rwa [hreceived₂]) hp₃ hr'
    obtain ⟨r, hr, hsession⟩ := hread _ (recv_parsed (by rwa [hreceived₁]) hp₂ hnext)
    refine ⟨r, hr, ?_⟩
    rw [hsession]
    dsimp only
    rw [hsession']
    dsimp only
    rw [hext₄, Nat.zero_add, Nat.one_mul]

/-- The numbers 65535, 0, then 65530 late, and 1 and 2. -/
theorem a_late_packet_costs_a_cycle_example :
    (∃ r, rtp_session_rtp_recv rtp_session_init
        [[0x80, 0, 255, 255, 0, 0, 0, 0, 0, 0, 0, 7, 1], [0x80, 0, 0, 0, 0, 0, 0, 0, 0, 0, 0, 7, 1]] =
          .ok r ∧ extseq r.session = 65536) ∧
      ∃ r, rtp_session_rtp_recv rtp_session_init
          ([[0x80, 0, 255, 255, 0, 0, 0, 0, 0, 0, 0, 7, 1],
            [0x80, 0, 0, 0, 0, 0, 0, 0, 0, 0, 0, 7, 1]] ++
            ([[0x80, 0, 255, 250, 0, 0, 0, 0, 0, 0, 0, 7, 1],
              [0x80, 0, 0, 1, 0, 0, 0, 0, 0, 0, 0, 7, 1]] ++
              [[0x80, 0, 0, 2, 0, 0, 0, 0, 0, 0, 0, 7, 1]])) = .ok r ∧
        extseq r.session = 65538 + 65536 :=
  a_late_packet_costs_a_cycle rtp_session_init 7 ⟨fun h => absurd h Bool.false_ne_true, by decide⟩
    rfl _ _ _ _ [65535, 65536] [65538] 65530
    (.cons rfl rfl rfl (by decide) rfl (.cons rfl rfl rfl (by decide) rfl .nil)) (by decide)
    (.cons rfl rfl rfl (by decide) rfl (.cons rfl rfl rfl (by decide) rfl .nil)) (by decide)
    (.cons rfl rfl rfl (by decide) rfl .nil) (by decide)

end zonekey_mcu.rtp_session
