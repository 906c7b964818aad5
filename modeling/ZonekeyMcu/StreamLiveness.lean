-- When a stream counts as dead. The loop of its conference calls it at some times, and packets
-- come at other times. Here a time is a number of seconds, and may lie anywhere.
import ZonekeyMcu.Members
import ZonekeyMcu.Lib.Watchdog
import Mathlib.Algebra.Order.Ring.Rat
import Mathlib.Tactic.FieldSimp
import Mathlib.Tactic.NormNum

open watchdog

namespace zonekey_mcu.stream_liveness

/-! ## The calls on a stream -/

def STREAM_TIMEOUT_SECONDS : Rat := 60

/-- The fields that the liveness of a stream rests on. -/
structure Stream where
  death_ : Bool
  last_check_stamp_ : Rat
  packet_recved_ : Nat

/-- The constructor, at the time of `util_time_now`. -/
def Stream.new (now : Rat) : Stream where
  death_ := false
  last_check_stamp_ := now
  packet_recved_ := 0

def Stream.is_timeout (s : Stream) (now : Rat) (packet_recv : Nat) : Bool × Stream :=
  if now - s.last_check_stamp_ > STREAM_TIMEOUT_SECONDS then
    if s.packet_recved_ = packet_recv then (true, s)
    else (false, { s with last_check_stamp_ := now, packet_recved_ := packet_recv })
  else (false, s)

def Stream.run (s : Stream) (now : Rat) (packet_recv : Nat) : Stream :=
  if s.death_ then s
  else
    let check := s.is_timeout now packet_recv
    { check.2 with death_ := check.1 }

/-- The stream after calls at some times. The session counts the packets up to each call. -/
def Stream.runs (packets : List Rat) : Stream → List Rat → Stream
  | s, [] => s
  | s, now :: calls => (s.run now (count packets now)).runs packets calls

/-- The liveness of a stream of a conference, whose times are in milliseconds. -/
def liveness (s : members.Stream) : Stream where
  death_ := s.death_
  last_check_stamp_ := s.last_check_stamp_ / 1000
  packet_recved_ := s.packet_recved_

theorem liveness_new (env : members.Env) (ptr : members.Ptr) (id payload : Int) (desc : String)
    (support_sink support_publisher : Bool) :
    liveness (.new env ptr id payload desc support_sink support_publisher) =
      .new (env.now / 1000) := rfl

theorem liveness_run (env : members.Env) (s : members.Stream) :
    liveness (s.run env) = (liveness s).run (env.now / 1000) (env.packet_recv s.ptr) := by
  have hlate : (env.now : Rat) / 1000 - s.last_check_stamp_ / 1000 > STREAM_TIMEOUT_SECONDS ↔
      env.now - s.last_check_stamp_ > members.TIMEOUT := by
    rw [← sub_div, gt_iff_lt, lt_div_iff₀ (by norm_num), STREAM_TIMEOUT_SECONDS, gt_iff_lt,
      members.TIMEOUT]
    norm_num
    exact_mod_cast Iff.rfl
  unfold members.Stream.run Stream.run members.Stream.is_timeout Stream.is_timeout liveness
  dsimp only
  by_cases hdead : s.death_ = true
  · simp only [if_pos hdead]
  · simp only [if_neg hdead, hlate]
    split
    · split <;> rfl
    · rfl

/-! ## A stream is a watchdog -/

def Stream.dog (s : Stream) : Watchdog Rat where
  dead := s.death_
  last := s.last_check_stamp_
  seen := s.packet_recved_

theorem dog_run (s : Stream) (now : Rat) (packet_recv : Nat) :
    (s.run now packet_recv).dog = s.dog.check STREAM_TIMEOUT_SECONDS now packet_recv := by
  unfold Stream.run Stream.is_timeout Watchdog.check Stream.dog
  dsimp only
  cases hdead : s.death_ with
  | true => simp [hdead]
  | false =>
    simp only [Bool.false_eq_true, if_false]
    split
    · split <;> rfl
    · rfl

theorem dog_runs (packets : List Rat) (s : Stream) (calls : List Rat) :
    (s.runs packets calls).dog = s.dog.checks STREAM_TIMEOUT_SECONDS packets calls := by
  induction calls generalizing s with
  | nil => rfl
  | cons now calls ih => rw [Stream.runs, ih, dog_run, Watchdog.checks]

/-! ## Runs of the loop -/

/-- A run of the loop from the creation of a stream on: its calls, which come in order and at
most `d` seconds apart, and the packets of the stream. -/
structure LoopRun where
  created : Rat
  calls : List Rat
  d : Rat
  paced : Paced d created calls
  packets : List Rat

/-- The stream after the first calls of the run. -/
def LoopRun.stream (r : LoopRun) (calls : List Rat) : Stream :=
  (Stream.new r.created).runs r.packets calls

/-- A packet comes in each window of the timeout, up to the last call. -/
def LoopRun.packet_in_each_window (r : LoopRun) : Prop :=
  ∀ t, r.created ≤ t → t + STREAM_TIMEOUT_SECONDS ≤ ends r.created r.calls →
    ∃ x ∈ r.packets, t ≤ x ∧ x ≤ t + STREAM_TIMEOUT_SECONDS

/-- No packet comes after `t`, and the loop goes on for so long that a call comes later than two
timeouts and `d` behind it. -/
structure LoopRun.Silent (r : LoopRun) (t : Rat) : Prop where
  created : r.created ≤ t
  packets : ∀ x ∈ r.packets, x ≤ t
  called : ∃ c ∈ r.calls, t + 2 * STREAM_TIMEOUT_SECONDS + r.d < c

theorem dead_runs (r : LoopRun) {early : List Rat} (hdead : (r.stream early).death_ = true)
    (late : List Rat) : (r.stream (early ++ late)).death_ = true := by
  have hdog := dog_runs r.packets (Stream.new r.created) (early ++ late)
  rw [checks_append, ← dog_runs] at hdog
  exact (congrArg Watchdog.dead hdog).trans (dead_stays hdead late)

/-- A stream with a packet in each window is not dead after any call. A stream without packets
after `t` is dead after the calls up to two timeouts and two calls later. And a dead stream
stays dead. -/
theorem a_stream_dies_exactly_without_packets (r : LoopRun) :
    (r.packet_in_each_window → ∀ early late, r.calls = early ++ late →
      (r.stream early).death_ = false) ∧
    (∀ t, r.Silent t → ∃ early late, r.calls = early ++ late ∧
      (∀ c ∈ early, c ≤ t + 2 * STREAM_TIMEOUT_SECONDS + 2 * r.d) ∧
      (r.stream early).death_ = true) ∧
    ∀ early later late, r.calls = early ++ later ++ late → (r.stream early).death_ = true →
      (r.stream (early ++ later)).death_ = true := by
  have hperiod : 0 ≤ STREAM_TIMEOUT_SECONDS := by decide
  refine ⟨fun hwindows early late hcalls => ?_, fun t hsilent => ?_,
    fun early later late _ hdead => dead_runs r hdead later⟩
  · have halive := alive_while_arrivals hperiod r.paced hwindows
    rw [show Watchdog.start r.created = (Stream.new r.created).dog from rfl, ← dog_runs] at halive
    by_contra hdead
    rw [Bool.not_eq_false] at hdead
    have hend := dead_runs r hdead late
    rw [← hcalls] at hend
    exact Bool.false_ne_true (halive.symm.trans hend)
  · obtain ⟨early, late, hcalls, hbound, hdead⟩ := dead_without_arrivals hperiod r.paced
      hsilent.created hsilent.packets hsilent.called
    rw [show Watchdog.start r.created = (Stream.new r.created).dog from rfl, ← dog_runs] at hdead
    exact ⟨early, late, hcalls, hbound, hdead⟩

/-- Calls each 50 seconds, and one packet. -/
def one_packet : LoopRun where
  created := 0
  calls := [50, 100, 150, 200]
  d := 50
  paced := by norm_num [Paced]
  packets := [10]

/-- The same calls up to a minute later, and a packet each minute. -/
def steady : LoopRun where
  created := 0
  calls := [50, 100]
  d := 50
  paced := by norm_num [Paced]
  packets := [40, 100]

/-- The packet at 10 seconds is seen by the call at 100. The next check is the call at 200. -/
theorem a_stream_dies_exactly_without_packets_example :
    (steady.packet_in_each_window ∧ ∀ early late, steady.calls = early ++ late →
      (steady.stream early).death_ = false) ∧
    one_packet.Silent 20 ∧ ∃ early late, one_packet.calls = early ++ late ∧
      (∀ c ∈ early, c ≤ 20 + 2 * STREAM_TIMEOUT_SECONDS + 2 * one_packet.d) ∧
      (one_packet.stream early).death_ = true := by
  have hsteady : steady.packet_in_each_window := by
    intro t ht hend
    have hlast : ends steady.created steady.calls = 100 := rfl
    rw [hlast, STREAM_TIMEOUT_SECONDS] at hend
    have ht0 : 0 ≤ t := ht
    rw [STREAM_TIMEOUT_SECONDS]
    exact ⟨40, by decide, by linarith, by linarith⟩
  have hsilent : one_packet.Silent 20 := by
    refine ⟨by decide, by decide, 200, by decide, ?_⟩
    norm_num [one_packet, STREAM_TIMEOUT_SECONDS]
  exact ⟨⟨hsteady, (a_stream_dies_exactly_without_packets steady).1 hsteady⟩, hsilent,
    (a_stream_dies_exactly_without_packets one_packet).2.1 20 hsilent⟩

end zonekey_mcu.stream_liveness
