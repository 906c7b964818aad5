-- What the sessions of the server do with a received RTCP message: a stream reads the blocks of
-- sender and receiver reports, a sink those of receiver reports and a source those of sender
-- reports. Each loops to the count of a packet, and the accessor looks at its length alone.
import ZonekeyMcu.Rtcp
import ZonekeyMcu.Lib.Runs

open zonekey_mcu.rtcp runs big_endian

namespace zonekey_mcu.rtcp_sessions

/-! ## Source descriptions -/

def RTCP_SDES : Nat := 202
def RTCP_BYE : Nat := 203
def RTCP_APP : Nat := 204

/-- A packet of the type that is not longer than what is left of the message. -/
def is_whole (type : Nat) (m : Mblk) : Bool :=
  match rtcp_get_common_header m with
  | none => false
  | some ch => ch.packet_type = type && !(m.length < (1 + ch.length) * 4)

def rtcp_is_SDES (m : Mblk) : Bool := is_whole RTCP_SDES m

def rtcp_is_BYE (m : Mblk) : Bool := is_whole RTCP_BYE m

/-- An APP packet has its sender and its name, too. -/
def rtcp_is_APP (m : Mblk) : Bool :=
  match rtcp_get_common_header m with
  | none => false
  | some ch => is_whole RTCP_APP m && !((1 + ch.length) * 4 < 12)

/-- What the callback gets. -/
structure SdesItem where
  csrc : Nat
  type : Nat
  content : List UInt8

/-- `rptr[0]`, inside the packet. -/
def octet (m : Mblk) (p : Nat) : Except Fault Nat :=
  match m[p]? with
  | some b => .ok b.toNat
  | none => .error .outOfBounds

/-- The `while (rptr<end)` of `rtcp_sdes_parse`, for at most `fuel` turns. The packet begins at
the address `base`, and the place behind an end item is the next multiple of 4. -/
def sdes_loop (base : Nat) (m : Mblk) (fin rc : Nat) : Nat → Nat → Bool → Nat → Nat →
    Except Fault (List SdesItem)
  | fuel, rptr, chunk_start, ssrc, nchunk =>
    if rptr < fin then
      match fuel with
      | 0 => .error .neverReturns
      | fuel + 1 =>
        if chunk_start then
          if rptr + 4 ≤ fin then do
            let ssrc ← word m rptr
            sdes_loop base m fin rc fuel (rptr + 4) false ssrc nchunk
          else .ok []
        else if rptr + 2 ≤ fin then do
          let type ← octet m rptr
          let len ← octet m (rptr + 1)
          if type = 0 then
            if nchunk + 1 < rc then
              sdes_loop base m fin rc fuel ((base + rptr + 4) / 4 * 4 - base) true ssrc (nchunk + 1)
            else .ok []
          else if rptr + 2 + len ≤ fin then do
            let items ← sdes_loop base m fin rc fuel (rptr + 2 + len) false ssrc nchunk
            return ⟨ssrc, type, (m.drop (rptr + 2)).take len⟩ :: items
          else .ok []
        else .ok []
    else .ok []

/-- The items of the packet. The end is taken from behind the header, and then cut off. -/
def rtcp_sdes_parse (base : Nat) (m : Mblk) : Except Fault (List SdesItem) :=
  match rtcp_get_common_header m with
  | none => .error .outOfBounds
  | some ch => sdes_loop base m (min (4 + 4 * (ch.length + 1)) m.length) ch.rc m.length 4 true 0 0

/-! ## Reports -/

/-- What a session keeps of the reports, and a log of the report blocks that it has read, each
with the rest of the message from its packet on. -/
structure Session where
  packets_lost : UInt64
  jitter : Nat
  reads : List (Mblk × Nat)

/-- Every report block that was read lies inside the message. -/
def Session.Inside (s : Session) : Prop :=
  ∀ r ∈ s.reads, r.2 + RTCP_REPORT_BLOCK_SIZE ≤ r.1.length

/-- The statistics of a stream and of a sink. -/
def count_report (m : Mblk) (rb : Nat) (s : Session) : Except Fault Session := do
  let jitter ← word m (rb + 12)
  let fl_cnpl ← word m (rb + 4)
  return { packets_lost := s.packets_lost + UInt64.ofNat (fl_cnpl / 2 ^ 24), jitter
           reads := s.reads ++ [(m, rb)] }

/-- The source writes the numbers to its log only. -/
def log_report (m : Mblk) (rb : Nat) (s : Session) : Except Fault Session := do
  let _jitter ← word m (rb + 12)
  let _fl_cnpl ← word m (rb + 4)
  let _ssrc ← word m rb
  return { s with reads := s.reads ++ [(m, rb)] }

/-- The loop over the report blocks from `i` on, for `n` turns. -/
def read_reports (get : Mblk → Nat → Option Nat)
    (read : Mblk → Nat → Session → Except Fault Session) (m : Mblk) :
    Nat → Nat → Session → Except Fault Session
  | 0, _, s => .ok s
  | n + 1, i, s =>
    match get m i with
    -- assert(rb)
    | none => .error .assertFailed
    | some rb => do
      let s ← read m rb s
      read_reports get read m n (i + 1) s

def on_report (get : Mblk → Nat → Option Nat)
    (read : Mblk → Nat → Session → Except Fault Session) (m : Mblk) (s : Session) :
    Except Fault Session :=
  match rtcp_get_common_header m with
  | none => .error .outOfBounds
  | some header => read_reports get read m header.rc 0 s

def on_rtcp_sdes (base : Nat) (m : Mblk) (s : Session) : Except Fault Session := do
  let _items ← rtcp_sdes_parse base m
  -- the callback returns at once
  return s

namespace Stream

def on_rtcp_sr : Mblk → Session → Except Fault Session :=
  on_report rtcp_SR_get_report_block count_report

def on_rtcp_rr : Mblk → Session → Except Fault Session :=
  on_report rtcp_RR_get_report_block count_report

/-- The part of a turn of `process_rtcp` before `rtcp_next_packet`. -/
def packet (s : Session) (a : Nat × Mblk) : Except Fault Session :=
  if rtcp_is_SR a.2 then on_rtcp_sr a.2 s
  else if rtcp_is_RR a.2 then on_rtcp_rr a.2 s
  else if rtcp_is_SDES a.2 then on_rtcp_sdes a.1 a.2 s
  -- on_rtcp_app and on_rtcp_bye do nothing
  else if rtcp_is_APP a.2 then .ok s
  else if rtcp_is_BYE a.2 then .ok s
  else .ok s

end Stream

namespace Sink

def packet (s : Session) (a : Nat × Mblk) : Except Fault Session :=
  if rtcp_is_RR a.2 then on_report rtcp_RR_get_report_block count_report a.2 s
  else if rtcp_is_BYE a.2 then .ok s
  else if rtcp_is_SDES a.2 then on_rtcp_sdes a.1 a.2 s
  else .ok s

end Sink

namespace Source

def on_rtcp_sr : Mblk → Session → Except Fault Session :=
  on_report rtcp_SR_get_report_block log_report

def packet (s : Session) (a : Nat × Mblk) : Except Fault Session :=
  if rtcp_is_SR a.2 then on_rtcp_sr a.2 s
  -- on_rtcp_rr writes to the log
  else if rtcp_is_RR a.2 then .ok s
  else if rtcp_is_SDES a.2 then on_rtcp_sdes a.1 a.2 s
  else if rtcp_is_BYE a.2 then .ok s
  else if rtcp_is_APP a.2 then .ok s
  else .ok s

end Source

/-- The `do .. while (rtcp_next_packet(m))`, for at most `fuel` turns. -/
def packet_loop (packet : Session → Nat × Mblk → Except Fault Session) :
    Nat → Nat → Mblk → Session → Except Fault Session
  | 0, _, _, _ => .error .neverReturns
  | fuel + 1, base, m, s => do
    let s ← packet s (base, m)
    match rtcp_next_packet m with
    | none => return s
    | some next => packet_loop packet fuel (base + (m.length - next.length)) next s

/-- Every packet but the last has four bytes at least, so the message is enough fuel. -/
def Stream.process_rtcp (base : Nat) (m : Mblk) (s : Session) : Except Fault Session :=
  packet_loop Stream.packet (m.length + 1) base m s

def Sink.process_rtcp (base : Nat) (m : Mblk) (s : Session) : Except Fault Session :=
  packet_loop Sink.packet (m.length + 1) base m s

def Source.process_rtcp (base : Nat) (m : Mblk) (s : Session) : Except Fault Session :=
  packet_loop Source.packet (m.length + 1) base m s

/-! ## The walk over a message -/

theorem next_packet_shorter {m next : Mblk} (h : rtcp_next_packet m = some next) :
    next.length < m.length := by
  unfold rtcp_next_packet rtcp_get_size at h
  cases hch : rtcp_get_common_header m with
  | none =>
    rw [hch] at h
    cases h
  | some ch =>
    rw [hch] at h
    dsimp only [Option.map_some] at h
    split at h
    · obtain rfl := Option.some.inj h
      rw [List.length_drop]
      omega
    · cases h

/-- The message from each of its packets on, with the address of the packet. -/
def packets (base : Nat) (m : Mblk) : List (Nat × Mblk) :=
  (base, m) :: match _h : rtcp_next_packet m with
    | none => []
    | some next => packets (base + (m.length - next.length)) next
termination_by m.length
decreasing_by exact next_packet_shorter _h

theorem packets_none {m : Mblk} (h : rtcp_next_packet m = none) (base : Nat) :
    packets base m = [(base, m)] := by
  rw [packets]
  split
  · rfl
  · rename_i heq
    rw [h] at heq
    cases heq

theorem packets_some {m next : Mblk} (h : rtcp_next_packet m = some next) (base : Nat) :
    packets base m = (base, m) :: packets (base + (m.length - next.length)) next := by
  rw [packets]
  split
  · rename_i heq
    rw [h] at heq
    cases heq
  · rename_i next' heq
    rw [h] at heq
    obtain rfl := Option.some.inj heq
    rfl

/-- The loop is a run over the packets, and it ends. -/
theorem packet_loop_eq_run (packet : Session → Nat × Mblk → Except Fault Session) {fuel : Nat}
    {m : Mblk} (hfuel : m.length < fuel) (base : Nat) (s : Session) :
    packet_loop packet fuel base m s = run packet s (packets base m) := by
  induction fuel generalizing base m s with
  | zero => omega
  | succ fuel ih =>
    rw [packet_loop]
    cases hnext : rtcp_next_packet m with
    | none =>
      rw [packets_none hnext]
      cases hs : packet s (base, m) with
      | ok t => simp [run, hs]
      | error e => simp [run, hs]
    | some next =>
      have hlt := next_packet_shorter hnext
      rw [packets_some hnext]
      cases hs : packet s (base, m) with
      | ok t =>
        rw [run_cons_ok _ hs, ← ih (by omega) _ t]
        rfl
      | error e => simp [run, hs]

/-! ## Source descriptions end -/

theorem octet_ok {m : Mblk} {p : Nat} (h : p < m.length) : ∃ n, octet m p = .ok n := by
  unfold octet
  rw [List.getElem?_eq_getElem h]
  exact ⟨_, rfl⟩

/-- Every turn moves on, and reads before the end. -/
theorem sdes_loop_ends (base : Nat) {m : Mblk} {fin : Nat} (hfin : fin ≤ m.length) (rc : Nat)
    {fuel rptr : Nat} (hfuel : fin ≤ rptr + fuel) (chunk_start : Bool) (ssrc nchunk : Nat) :
    ∃ items, sdes_loop base m fin rc fuel rptr chunk_start ssrc nchunk = .ok items := by
  induction fuel generalizing rptr chunk_start ssrc nchunk with
  | zero =>
    unfold sdes_loop
    rw [if_neg (by omega)]
    exact ⟨_, rfl⟩
  | succ fuel ih =>
    unfold sdes_loop
    by_cases hlt : rptr < fin
    · rw [if_pos hlt]
      dsimp only
      cases chunk_start with
      | true =>
        rw [if_pos rfl]
        by_cases hfour : rptr + 4 ≤ fin
        · rw [if_pos hfour, word_ok (by omega), ok_bind]
          exact ih (by omega) _ _ _
        · rw [if_neg hfour]
          exact ⟨_, rfl⟩
      | false =>
        rw [if_neg Bool.false_ne_true]
        by_cases htwo : rptr + 2 ≤ fin
        · obtain ⟨type, htype⟩ := octet_ok (m := m) (p := rptr) (by omega)
          obtain ⟨len, hlen⟩ := octet_ok (m := m) (p := rptr + 1) (by omega)
          rw [if_pos htwo, htype, ok_bind, hlen, ok_bind]
          split
          · split
            · exact ih (by omega) _ _ _
            · exact ⟨_, rfl⟩
          · split
            · obtain ⟨items, hitems⟩ := @ih (rptr + 2 + len) (by omega) false ssrc nchunk
              rw [hitems]
              exact ⟨_, rfl⟩
            · exact ⟨_, rfl⟩
        · rw [if_neg htwo]
          exact ⟨_, rfl⟩
    · rw [if_neg hlt]
      exact ⟨_, rfl⟩

theorem on_rtcp_sdes_ok (base : Nat) {m : Mblk} (h : rtcp_is_SDES m = true) (s : Session) :
    on_rtcp_sdes base m s = .ok s := by
  unfold on_rtcp_sdes rtcp_sdes_parse
  unfold rtcp_is_SDES is_whole at h
  cases hch : rtcp_get_common_header m with
  | none =>
    rw [hch] at h
    cases h
  | some ch =>
    have hfin := Nat.min_le_right (4 + 4 * (ch.length + 1)) m.length
    obtain ⟨items, hitems⟩ := @sdes_loop_ends base m _ hfin ch.rc m.length 4 (by omega) true 0 0
    dsimp only
    rw [hitems]
    rfl

/-! ## The report blocks of a packet -/

/-- The reports that the header counts lie in the packet and in the message. -/
def WholeReports (header : Nat) (m : Mblk) : Prop :=
  ∀ ch, rtcp_get_common_header m = some ch → ch.rc ≠ 0 →
    header + RTCP_REPORT_BLOCK_SIZE * ch.rc ≤ (1 + ch.length) * 4 ∧
      header + RTCP_REPORT_BLOCK_SIZE * ch.rc ≤ m.length

/-- A reader of blocks succeeds on those that lie inside the message, and logs each. -/
structure Logs (read : Mblk → Nat → Session → Except Fault Session) : Prop where
  ok : ∀ m rb s, rb + RTCP_REPORT_BLOCK_SIZE ≤ m.length → ∃ t, read m rb s = .ok t
  log : ∀ m rb s t, read m rb s = .ok t → t.reads = s.reads ++ [(m, rb)]

theorem count_report_logs : Logs count_report where
  ok m rb s h := by
    unfold RTCP_REPORT_BLOCK_SIZE at h
    unfold count_report
    rw [word_ok (by omega), ok_bind, word_ok (by omega), ok_bind]
    exact ⟨_, rfl⟩
  log m rb s t h := by
    obtain ⟨jitter, -, h⟩ := bind_ok h
    obtain ⟨fl_cnpl, -, h⟩ := bind_ok h
    obtain rfl := Except.ok.inj h
    rfl

theorem log_report_logs : Logs log_report where
  ok m rb s h := by
    unfold RTCP_REPORT_BLOCK_SIZE at h
    unfold log_report
    rw [word_ok (by omega), ok_bind, word_ok (by omega), ok_bind, word_ok (by omega), ok_bind]
    exact ⟨_, rfl⟩
  log m rb s t h := by
    obtain ⟨jitter, -, h⟩ := bind_ok h
    obtain ⟨fl_cnpl, -, h⟩ := bind_ok h
    obtain ⟨ssrc, -, h⟩ := bind_ok h
    obtain rfl := Except.ok.inj h
    rfl

section

variable {read : Mblk → Nat → Session → Except Fault Session} {header : Nat} {m : Mblk}

theorem inside_append {s t : Session} {rb : Nat} (h : t.reads = s.reads ++ [(m, rb)]) :
    t.Inside ↔ s.Inside ∧ rb + RTCP_REPORT_BLOCK_SIZE ≤ m.length := by
  unfold Session.Inside
  rw [h, List.forall_mem_append, List.forall_mem_singleton]

/-- One block. -/
theorem read_block_iff (hread : Logs read) (rb : Nat) (s : Session) :
    (∃ t, read m rb s = .ok t ∧ t.Inside) ↔
      s.Inside ∧ rb + RTCP_REPORT_BLOCK_SIZE ≤ m.length := by
  constructor
  · rintro ⟨t, ht, hin⟩
    exact (inside_append (hread.log m rb s t ht)).mp hin
  · rintro ⟨hs, hrb⟩
    obtain ⟨t, ht⟩ := hread.ok m rb s hrb
    exact ⟨t, ht, (inside_append (hread.log m rb s t ht)).mpr ⟨hs, hrb⟩⟩

/-- The loop reads all blocks inside the message if and only if they lie in the packet and in
the message. -/
theorem read_reports_iff (hread : Logs read) {size : Nat} (hsize : rtcp_get_size m = some size)
    (n i : Nat) (s : Session) :
    (∃ t, read_reports (get_report_block header) read m n i s = .ok t ∧ t.Inside) ↔
      s.Inside ∧ ∀ k < n, header + RTCP_REPORT_BLOCK_SIZE * (i + k + 1) ≤ size ∧
        header + RTCP_REPORT_BLOCK_SIZE * (i + k + 1) ≤ m.length := by
  induction n generalizing i s with
  | zero => simp [read_reports]
  | succ n ih =>
    have hget : get_report_block header m i =
        if header + RTCP_REPORT_BLOCK_SIZE * (i + 1) ≤ size then
          some (header + RTCP_REPORT_BLOCK_SIZE * i) else none := by
      simp only [get_report_block, hsize]
      rfl
    rw [read_reports, hget, Nat.forall_lt_succ_left]
    by_cases hfit : header + RTCP_REPORT_BLOCK_SIZE * (i + 1) ≤ size
    · rw [if_pos hfit]
      dsimp only
      have hmove : ∀ k, i + 1 + k + 1 = i + (k + 1) + 1 := fun k => by omega
      constructor
      · rintro ⟨t, ht, hin⟩
        obtain ⟨u, hu, ht⟩ := bind_ok ht
        obtain ⟨hu', hall⟩ := (ih (i + 1) u).mp ⟨t, ht, hin⟩
        obtain ⟨hs, hrb⟩ := (read_block_iff hread _ s).mp ⟨u, hu, hu'⟩
        refine ⟨hs, ⟨hfit, ?_⟩, fun k hk => hmove k ▸ hall k hk⟩
        rw [Nat.add_zero, Nat.mul_succ]
        omega
      · rintro ⟨hs, hfirst, hall⟩
        rw [Nat.add_zero, Nat.mul_succ] at hfirst
        obtain ⟨u, hu, hu'⟩ := (read_block_iff (m := m) hread
          (header + RTCP_REPORT_BLOCK_SIZE * i) s).mpr ⟨hs, by omega⟩
        obtain ⟨t, ht, hin⟩ := (ih (i + 1) u).mpr ⟨hu', fun k hk => (hmove k).symm ▸ hall k hk⟩
        exact ⟨t, by rw [hu, ok_bind, ht], hin⟩
    · rw [if_neg hfit]
      exact iff_of_false (not_exists_error _ _) fun h => hfit h.2.1.1

theorem on_report_iff (hread : Logs read) {ch : CommonHeader}
    (hch : rtcp_get_common_header m = some ch) (s : Session) :
    (∃ t, on_report (get_report_block header) read m s = .ok t ∧ t.Inside) ↔
      s.Inside ∧ WholeReports header m := by
  have hsize : rtcp_get_size m = some ((1 + ch.length) * 4) := by
    rw [rtcp_get_size, hch]
    rfl
  unfold on_report WholeReports
  rw [hch]
  dsimp only
  rw [read_reports_iff hread hsize]
  simp only [Nat.zero_add, Option.some.injEq, forall_eq']
  -- the last block reaches farthest
  refine and_congr_right fun _ => ⟨fun h hne => ?_, fun h k hk => ?_⟩
  · obtain ⟨n, hn⟩ := Nat.exists_eq_succ_of_ne_zero hne
    rw [hn]
    exact h n (by omega)
  · have hle : RTCP_REPORT_BLOCK_SIZE * (k + 1) ≤ RTCP_REPORT_BLOCK_SIZE * ch.rc :=
      Nat.mul_le_mul_left _ hk
    have hall := h (by omega)
    omega

theorem header_of_report {type size : Nat} (h : is_report type size m = true) :
    ∃ ch, rtcp_get_common_header m = some ch := by
  unfold is_report at h
  cases hch : rtcp_get_common_header m with
  | none =>
    rw [hch] at h
    cases h
  | some ch => exact ⟨ch, rfl⟩

end

/-! ## The packets of a message -/

theorem not_rr_of_sr {m : Mblk} (h : rtcp_is_SR m = true) : ¬ rtcp_is_RR m = true := by
  unfold rtcp_is_SR is_report at h
  unfold rtcp_is_RR is_report
  cases hch : rtcp_get_common_header m with
  | none => simp
  | some ch =>
    simp only [hch, Bool.and_eq_true, decide_eq_true_eq] at h ⊢
    rw [h.1]
    exact fun h' => absurd h'.1 (by decide)

/-- A packet that changes nothing. -/
theorem kept_iff {x : Except Fault Session} {s : Session} (h : x = .ok s) {C : Prop} (hC : C) :
    (∃ t, x = .ok t ∧ t.Inside) ↔ s.Inside ∧ C := by
  subst h
  simp [hC]

theorem sr_blocks : rtcp_SR_get_report_block = get_report_block 28 := rfl

theorem rr_blocks : rtcp_RR_get_report_block = get_report_block 8 := rfl

/-- A packet that is handled as a report of one of the two kinds. -/
theorem report_iff {get : Mblk → Nat → Option Nat} {header type size : Nat}
    (hget : get = get_report_block header)
    {read : Mblk → Nat → Session → Except Fault Session} (hread : Logs read) {m : Mblk}
    (h : is_report type size m = true) (s : Session) :
    (∃ t, on_report get read m s = .ok t ∧ t.Inside) ↔ s.Inside ∧ WholeReports header m := by
  obtain ⟨ch, hch⟩ := header_of_report h
  rw [hget, on_report_iff hread hch]

theorem Stream.packet_iff (s : Session) (a : Nat × Mblk) :
    (∃ t, Stream.packet s a = .ok t ∧ t.Inside) ↔ s.Inside ∧
      (rtcp_is_SR a.2 = true → WholeReports 28 a.2) ∧
        (rtcp_is_RR a.2 = true → WholeReports 8 a.2) := by
  unfold Stream.packet
  by_cases hsr : rtcp_is_SR a.2 = true
  · rw [if_pos hsr, Stream.on_rtcp_sr, report_iff sr_blocks count_report_logs hsr]
    simp [hsr, not_rr_of_sr hsr]
  · rw [if_neg hsr]
    by_cases hrr : rtcp_is_RR a.2 = true
    · rw [if_pos hrr, Stream.on_rtcp_rr, report_iff rr_blocks count_report_logs hrr]
      simp [hsr, hrr]
    · refine kept_iff ?_ ⟨fun h => absurd h hsr, fun h => absurd h hrr⟩
      rw [if_neg hrr]
      split
      · rename_i hsdes
        exact on_rtcp_sdes_ok _ hsdes s
      · split
        · rfl
        · split <;> rfl

theorem Sink.packet_iff (s : Session) (a : Nat × Mblk) :
    (∃ t, Sink.packet s a = .ok t ∧ t.Inside) ↔ s.Inside ∧
      (rtcp_is_RR a.2 = true → WholeReports 8 a.2) := by
  unfold Sink.packet
  by_cases hrr : rtcp_is_RR a.2 = true
  · rw [if_pos hrr, report_iff rr_blocks count_report_logs hrr]
    simp [hrr]
  · refine kept_iff ?_ fun h => absurd h hrr
    rw [if_neg hrr]
    split
    · rfl
    · split
      · rename_i hsdes
        exact on_rtcp_sdes_ok _ hsdes s
      · rfl

theorem Source.packet_iff (s : Session) (a : Nat × Mblk) :
    (∃ t, Source.packet s a = .ok t ∧ t.Inside) ↔ s.Inside ∧
      (rtcp_is_SR a.2 = true → WholeReports 28 a.2) := by
  unfold Source.packet
  by_cases hsr : rtcp_is_SR a.2 = true
  · rw [if_pos hsr, Source.on_rtcp_sr, report_iff sr_blocks log_report_logs hsr]
    simp [hsr]
  · refine kept_iff ?_ fun h => absurd h hsr
    rw [if_neg hsr]
    split
    · rfl
    · split
      · rename_i hsdes
        exact on_rtcp_sdes_ok _ hsdes s
      · split
        · rfl
        · split <;> rfl

/-! ## The law -/

/-- A loop over a message returns with all its blocks inside if and only if every packet of the
message meets the condition of one packet. -/
theorem process_iff {packet : Session → Nat × Mblk → Except Fault Session}
    {C : Nat × Mblk → Prop}
    (hpacket : ∀ s a, (∃ t, packet s a = .ok t ∧ t.Inside) ↔ s.Inside ∧ C a) (base : Nat)
    (m : Mblk) {s : Session} (hs : s.Inside) :
    (∃ t, packet_loop packet (m.length + 1) base m s = .ok t ∧ t.Inside) ↔
      ∀ a ∈ packets base m, C a := by
  rw [packet_loop_eq_run packet (Nat.lt_succ_self _), run_iff_forall hpacket, and_iff_right hs]

/-- A message is processed to its end, with every block inside it and no assertion that fails,
if and only if in each of its packets that is handled as a report the blocks that the header
counts lie in the packet, as its length has it, and in the message. -/
theorem a_message_is_harmless_when_its_reports_are_whole (base : Nat) (m : Mblk)
    (packets_lost : UInt64) (jitter : Nat) :
    ((∃ t, Stream.process_rtcp base m ⟨packets_lost, jitter, []⟩ = .ok t ∧ t.Inside) ↔
        ∀ a ∈ packets base m, (rtcp_is_SR a.2 = true → WholeReports 28 a.2) ∧
          (rtcp_is_RR a.2 = true → WholeReports 8 a.2)) ∧
      ((∃ t, Sink.process_rtcp base m ⟨packets_lost, jitter, []⟩ = .ok t ∧ t.Inside) ↔
        ∀ a ∈ packets base m, rtcp_is_RR a.2 = true → WholeReports 8 a.2) ∧
      ((∃ t, Source.process_rtcp base m ⟨packets_lost, jitter, []⟩ = .ok t ∧ t.Inside) ↔
        ∀ a ∈ packets base m, rtcp_is_SR a.2 = true → WholeReports 28 a.2) := by
  have hnone : (Session.mk packets_lost jitter []).Inside := nofun
  exact ⟨process_iff Stream.packet_iff base m hnone, process_iff Sink.packet_iff base m hnone,
    process_iff Source.packet_iff base m hnone⟩

/-- A sender report of 28 bytes with the count 1 and the length of a report without blocks. -/
def count_without_block : Mblk := [0x81, 200, 0, 6] ++ List.replicate 24 0

theorem a_count_without_block_fails_the_assertion :
    Stream.process_rtcp 0 count_without_block ⟨0, 0, []⟩ = .error .assertFailed ∧
      Source.process_rtcp 0 count_without_block ⟨0, 0, []⟩ = .error .assertFailed :=
  ⟨rfl, rfl⟩

end zonekey_mcu.rtcp_sessions
