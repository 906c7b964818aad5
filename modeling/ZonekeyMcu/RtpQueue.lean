-- The queue of received RTP packets. `rtp_putq` walks from the newest packet back to the
-- place of the new one, and `queue_packet` keeps the queue below its limit. A packet that
-- leaves the session does so with a fate, which says what became of it.
import ZonekeyMcu.Lib.SerialNumbers
import ZonekeyMcu.Lib.ReorderBuffer
import ZonekeyMcu.Lib.Runs
import ZonekeyMcu.Fault

namespace zonekey_mcu.rtp_session

open serial_numbers reorder_buffer runs

def RTP_FIXED_HEADER_SIZE : Nat := 12

/-- The header in host order. -/
structure rtp_header_t where
  version : Nat
  extbit : Bool
  cc : Nat
  markbit : Bool
  paytype : Nat
  seq_number : UInt16
  timestamp : UInt32
  ssrc : UInt32
  deriving DecidableEq

/-- A packet: its header, and the bytes after the fixed part of the header. -/
structure Message where
  rtp : rtp_header_t
  data : List UInt8
  deriving DecidableEq

def msgdsize (mp : Message) : Nat := RTP_FIXED_HEADER_SIZE + mp.data.length

inductive Fate where
  | bad
  | no_data
  | duplicate
  | pushed_out
  | too_old
  | rejected
  | flushed
  | telephone_event
  | delivered
  deriving DecidableEq

/-- The packets that left the session, each with its fate. -/
abbrev Fates := List (Message × Fate)

def RTP_SEQ_IS_GREATER (seq1 seq2 : UInt16) : Bool := seq1 - seq2 < 32768

def RTP_TIMESTAMP_IS_NEWER_THAN (ts1 ts2 : UInt32) : Bool := ts1 - ts2 < 2147483648

def RTP_TIMESTAMP_IS_STRICTLY_NEWER_THAN (ts1 ts2 : UInt32) : Bool :=
  RTP_TIMESTAMP_IS_NEWER_THAN ts1 ts2 && ts1 != ts2

/-- The walk of `rtp_putq` from the bottom of the queue, with the packets newest first.
The flag is false for a packet that is there already. -/
def putq_from_last (mp : Message) : List Message → List Message × Bool
  | [] => ([mp], true)
  | tmp :: older =>
    if mp.rtp.seq_number = tmp.rtp.seq_number then (tmp :: older, false)
    else if RTP_SEQ_IS_GREATER mp.rtp.seq_number tmp.rtp.seq_number then (mp :: tmp :: older, true)
    else (tmp :: (putq_from_last mp older).1, (putq_from_last mp older).2)

/-- The queue has its oldest packet first. -/
def rtp_putq (q : List Message) (mp : Message) : List Message × Fates :=
  let r := putq_from_last mp q.reverse
  (r.1.reverse, if r.2 then [] else [(mp, .duplicate)])

/-- The `while` of `queue_packet`. No queue is short enough for a negative limit. -/
def discard_oldest (maxrqsz : Int) : List Message → Except Fault (List Message × Fates)
  | [] => if maxrqsz < 0 then .error .neverReturns else .ok ([], [])
  | tmp :: q =>
    if maxrqsz < q.length + 1 then do
      let (q', gone) ← discard_oldest maxrqsz q
      return (q', (tmp, .pushed_out) :: gone)
    else .ok (tmp :: q, [])

structure Queued where
  q : List Message
  freed : Fates
  discarded : Nat
  kept : Bool

def queue_packet (q : List Message) (maxrqsz : Int) (mp : Message) : Except Fault Queued :=
  if mp.data.length = 4 * mp.rtp.cc then
    .ok { q := q, freed := [(mp, .no_data)], discarded := 1, kept := false }
  else do
    let (q, dup) := rtp_putq q mp
    let (q, gone) ← discard_oldest maxrqsz q
    return { q := q, freed := dup ++ gone, discarded := gone.length, kept := true }

/-- The loop of `rtp_getq`. The packet in hand is older than the time asked for; a newer
one that is old enough takes its place, unless both have the same time. -/
def getq_loop (timestamp : UInt32) (hand : Option Message) :
    List Message → Option Message × List Message × Fates
  | [] => (hand, [], [])
  | tmp :: q =>
    if RTP_TIMESTAMP_IS_NEWER_THAN timestamp tmp.rtp.timestamp then
      match hand with
      | none => getq_loop timestamp (some tmp) q
      | some old =>
        if tmp.rtp.timestamp = old.rtp.timestamp then (some old, tmp :: q, [])
        else
          let r := getq_loop timestamp (some tmp) q
          (r.1, r.2.1, (old, .rejected) :: r.2.2)
    else (hand, tmp :: q, [])

def rtp_getq (q : List Message) (timestamp : UInt32) : Option Message × List Message × Fates :=
  getq_loop timestamp none q

def rtp_getq_permissive (q : List Message) (timestamp : UInt32) :
    Option Message × List Message × Fates :=
  match q with
  | [] => (none, [], [])
  | tmp :: q' =>
    if RTP_TIMESTAMP_IS_NEWER_THAN timestamp tmp.rtp.timestamp then (some tmp, q', [])
    else (none, tmp :: q', [])

def getq : List Message → Option Message × List Message × Fates
  | [] => (none, [], [])
  | tmp :: q => (some tmp, q, [])

/-! ## Inside a window of the sequence numbers -/

/-- `ext` gives the number of a packet before it wrapped to 16 bits. -/
def Numbered (ext : Message → Nat) (mp : Message) : Prop :=
  mp.rtp.seq_number.toNat = ext mp % 65536

/-- The packets are numbered, and less than half the circle apart. -/
def Window (ext : Message → Nat) (mps : List Message) : Prop :=
  (∀ mp ∈ mps, Numbered ext mp) ∧ ∀ mp ∈ mps, ∀ tmp ∈ mps, ext mp < ext tmp + 32768

section

variable {ext : Message → Nat} {mp tmp : Message} {q mps : List Message}

theorem window_near (h : Window ext mps) (hmp : mp ∈ mps) (htmp : tmp ∈ mps) :
    Near 65536 (ext mp) (ext tmp) := by
  have hone := h.2 mp hmp tmp htmp
  have htwo := h.2 tmp htmp mp hmp
  constructor <;> omega

theorem seq_same (h : Window ext mps) (hmp : mp ∈ mps) (htmp : tmp ∈ mps) :
    mp.rtp.seq_number = tmp.rtp.seq_number ↔ ext mp = ext tmp := by
  rw [← wrapped_inj (window_near h hmp htmp), ← h.1 mp hmp, ← h.1 tmp htmp, UInt16.toNat_inj]

theorem seq_is_greater (h : Window ext mps) (hmp : mp ∈ mps) (htmp : tmp ∈ mps) :
    RTP_SEQ_IS_GREATER mp.rtp.seq_number tmp.rtp.seq_number = true ↔ ext tmp ≤ ext mp := by
  rw [← ahead_lt_half (window_near h hmp htmp), ← h.1 mp hmp, ← h.1 tmp htmp]
  unfold RTP_SEQ_IS_GREATER ahead
  rw [decide_eq_true_eq, UInt16.lt_iff_toNat_lt, UInt16.toNat_sub]
  have h32768 : (32768 : UInt16).toNat = 32768 := rfl
  rw [h32768]
  omega

/-- Inside a window the walk of `rtp_putq` finds the place by the numbers. -/
theorem putq_from_last_eq (h : Window ext mps) (hmp : mp ∈ mps) (hq : ∀ m ∈ q, m ∈ mps) :
    (putq_from_last mp q).1 = put ext mp q := by
  induction q with
  | nil => rfl
  | cons tmp older ih =>
    have htmp := hq tmp List.mem_cons_self
    have hsame := seq_same h hmp htmp
    have hgreater := seq_is_greater h hmp htmp
    unfold putq_from_last put
    by_cases heq : ext mp = ext tmp
    · rw [if_pos (hsame.mpr heq), if_pos heq]
    · rw [if_neg (mt hsame.mp heq), if_neg heq]
      by_cases hlt : ext tmp < ext mp
      · rw [if_pos (hgreater.mpr hlt.le), if_pos hlt]
      · rw [if_neg (mt hgreater.mp (by omega)), if_neg hlt,
          ih fun m hm => hq m (List.mem_cons_of_mem tmp hm)]

theorem rtp_putq_eq (h : Window ext mps) (hmp : mp ∈ mps) (hq : ∀ m ∈ q, m ∈ mps) :
    (rtp_putq q mp).1 = (put ext mp q.reverse).reverse := by
  show (putq_from_last mp q.reverse).1.reverse = _
  rw [putq_from_last_eq h hmp fun m hm => hq m (List.mem_reverse.mp hm)]

end

/-! ## The limit -/

/-- A packet with a byte behind its header. -/
def HasData (mp : Message) : Prop := mp.data.length ≠ 4 * mp.rtp.cc

instance (mp : Message) : Decidable (HasData mp) := inferInstanceAs (Decidable (_ ≠ _))

theorem discard_oldest_eq (n : Nat) (q : List Message) :
    discard_oldest n q =
      .ok (q.drop (q.length - n), (q.take (q.length - n)).map fun m => (m, .pushed_out)) := by
  induction q with
  | nil =>
    rw [List.drop_nil, List.take_nil]
    exact if_neg (by omega)
  | cons tmp q ih =>
    unfold discard_oldest
    by_cases hlong : n < q.length + 1
    · rw [if_pos (by omega), ih, ok_bind, List.length_cons,
        show q.length + 1 - n = q.length - n + 1 by omega]
      rfl
    · rw [if_neg (by omega), List.length_cons, show q.length + 1 - n = 0 by omega]
      rfl

/-- A negative limit is never met. -/
theorem discard_oldest_negative {maxrqsz : Int} (h : maxrqsz < 0) (q : List Message) :
    discard_oldest maxrqsz q = .error .neverReturns := by
  induction q with
  | nil => exact if_pos h
  | cons tmp q ih =>
    unfold discard_oldest
    rw [if_pos (by omega), ih, error_bind]

theorem queue_packet_of_data {mp : Message} (q : List Message) (maxrqsz : Int)
    (hdata : HasData mp) :
    queue_packet q maxrqsz mp = (discard_oldest maxrqsz (rtp_putq q mp).1).map fun r =>
      { q := r.1, freed := (rtp_putq q mp).2 ++ r.2, discarded := r.2.length, kept := true } := by
  unfold queue_packet
  rw [if_neg hdata]
  show (discard_oldest maxrqsz (rtp_putq q mp).1 >>= _) = _
  cases discard_oldest maxrqsz (rtp_putq q mp).1 with
  | ok r => rfl
  | error e => rfl

/-- `queue_packet` as a step of the queue alone. -/
def arrive (maxrqsz : Int) (q : List Message) (mp : Message) : Except Fault (List Message) :=
  (queue_packet q maxrqsz mp).map (·.q)

section

variable {ext : Message → Nat} {q mps : List Message}

theorem arrive_eq {mp : Message} {n : Nat} (h : Window ext mps) (hmp : mp ∈ mps)
    (hq : ∀ m ∈ q, m ∈ mps) :
    arrive n q mp =
      .ok (if HasData mp then ((put ext mp q.reverse).take n).reverse else q) := by
  unfold arrive
  split
  · rename_i hdata
    rw [queue_packet_of_data q n hdata, discard_oldest_eq, Except.map, Except.map,
      rtp_putq_eq h hmp hq, List.reverse_take, List.length_reverse]
  · rename_i hdata
    unfold queue_packet
    rw [if_pos (not_not.mp hdata)]
    rfl

theorem run_arrive {n : Nat} (h : Window ext mps) :
    ∀ {arrivals q : List Message}, (∀ m ∈ arrivals, m ∈ mps) → (∀ m ∈ q, m ∈ mps) →
      run (arrive n) q arrivals =
        .ok (putAll ext n q.reverse (arrivals.filter (HasData ·))).reverse := by
  intro arrivals
  induction arrivals with
  | nil =>
    intro q _ _
    exact congrArg Except.ok (List.reverse_reverse q).symm
  | cons mp arrivals ih =>
    intro q harr hq
    have hmp := harr mp List.mem_cons_self
    have hrest : ∀ m ∈ arrivals, m ∈ mps := fun m hm => harr m (List.mem_cons_of_mem mp hm)
    rw [run_cons_ok arrivals (arrive_eq h hmp hq)]
    by_cases hdata : HasData mp
    · rw [if_pos hdata, ih hrest, List.reverse_reverse, List.filter_cons_of_pos (by simpa)]
      · rfl
      · intro m hm
        rcases mem_put (List.mem_of_mem_take (List.mem_reverse.mp hm)) with rfl | hm
        · exact hmp
        · exact hq m (List.mem_reverse.mp hm)
    · rw [if_neg hdata, ih hrest hq, List.filter_cons_of_neg (by simpa)]

end

/-- In whatever order the packets of a window come, and however often each comes, the queue
holds the newest of them, as many as the limit allows, in the order of their numbers. -/
theorem the_queue_holds_the_newest_packets (ext : Message → Nat) (max_rq_size : Nat)
    (arrivals : List Message) (h : Window ext arrivals) :
    ∃ q, run (arrive max_rq_size) [] arrivals = .ok q ∧ (∀ m ∈ q, m ∈ arrivals) ∧
      q.map ext =
        ((newest ext (arrivals.filter (HasData ·))).take max_rq_size).reverse := by
  refine ⟨_, run_arrive h (fun m hm => hm) (fun m hm => absurd hm List.not_mem_nil), ?_, ?_⟩
  · intro m hm
    exact (List.mem_filter.mp (mem_putAll (List.mem_reverse.mp hm))).1
  · rw [List.map_reverse, List.reverse_nil, putAll_newest]

/-- A packet with one byte of data. -/
def one_byte (seq : UInt16) : Message :=
  { rtp :=
      { version := 2, extbit := false, cc := 0, markbit := false, paytype := 0,
        seq_number := seq, timestamp := 0, ssrc := 0 }
    data := [0] }

/-- The packet before the wrap comes last but one, and one packet comes twice. -/
theorem the_queue_holds_the_newest_packets_example :
    ∃ q, run (arrive 2) [] [one_byte 65534, one_byte 0, one_byte 65535, one_byte 0] = .ok q ∧
      (∀ m ∈ q, m ∈ [one_byte 65534, one_byte 0, one_byte 65535, one_byte 0]) ∧
      q.map (fun m => (m.rtp.seq_number.toNat + 2) % 65536 + 65534) =
        ((newest (fun m => (m.rtp.seq_number.toNat + 2) % 65536 + 65534)
          ([one_byte 65534, one_byte 0, one_byte 65535, one_byte 0].filter (HasData ·))).take
          2).reverse := by
  refine the_queue_holds_the_newest_packets _ 2 _ ⟨?_, ?_⟩
  · unfold Numbered
    decide
  · decide

end zonekey_mcu.rtp_session
