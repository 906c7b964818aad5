-- The stamps of a live cast over RTMP. The stamp of a frame is meant to count the milliseconds
-- since the first packet, but the test for a first packet is true of every packet, and the
-- stamp of the sound is never set.
import ZonekeyMcu.Rfc3984
import ZonekeyMcu.Lib.Runs
import Mathlib.Algebra.Order.BigOperators.Group.List

open runs zonekey_mcu.rfc3984

namespace zonekey_mcu.rtmp_livingcast

/-! ## The cast -/

/-- The stamps are doubles that hold whole numbers. -/
structure CTX where
  running_ : Bool
  rfc3984_ : Rfc3984Context
  st_video_last_ : UInt32
  st_audio_last_ : UInt32
  st_video_ : Int
  st_audio_ : Int

/-- The cast after a successful `open`. The constructor does not set the last timestamps. -/
def CTX.opened (payload_max_size : Int) (st_video_last_ st_audio_last_ : UInt32) : CTX where
  running_ := true
  rfc3984_ := rfc3984_init payload_max_size
  st_video_last_ := st_video_last_
  st_audio_last_ := st_audio_last_
  st_video_ := -1
  st_audio_ := -1

/-- The units behind start codes, the first one of four bytes. -/
def put_unit (obuf om : List UInt8) : List UInt8 :=
  if obuf.length = 0 then [0, 0, 0, 1] ++ om else obuf ++ ([0, 0, 1] ++ om)

/-- A key frame starts with a sequence parameter set. -/
def key_of (obuf : List UInt8) : Int :=
  if obuf.length > 5 then
    if obuf[4]? = some 0x67 then -1 else 0
  else 0

/-- What goes to the RTMP library. -/
structure Sent where
  data : List UInt8
  key : Int
  stamp : Int
  deriving DecidableEq, Repr

def CTX.saveH264 (c : CTX) (m : Packet) : Except Fault (Bool × Option Sent × CTX) :=
  if c.running_ then do
    let st := m.ts
    let (delta, st_video_) :=
      if c.st_video_ > 0 then ((st - c.st_video_last_) / 90, c.st_video_) else (0, 0)
    let st_video_ := st_video_ + delta.toNat
    let (rfc3984_, queue_) ← rfc3984_unpack c.rfc3984_ m
    let obuf := queue_.foldl put_unit []
    let sent :=
      if obuf.length > 0 then some { data := obuf, key := key_of obuf, stamp := st_video_ }
      else none
    return (true, sent, { c with rfc3984_, st_video_last_ := st, st_video_ })
  else .ok (false, none, c)

/-- The difference is computed, and not used. -/
def CTX.SaveAAC (c : CTX) (m : Packet) : Bool × Option Sent :=
  if c.running_ then (true, some { data := m.payload, key := 0, stamp := c.st_audio_ })
  else (false, none)

/-! ## Runs -/

inductive Input
  | video (m : Packet)
  | audio (m : Packet)

/-- What was sent, with the timestamps of the packets up to then. -/
structure Stamped where
  stamp : Int
  sts : List UInt32
  deriving DecidableEq

/-- The cast, the timestamps of its packets, and what it sent. -/
structure Cast where
  ctx : CTX
  video_sts : List UInt32
  audio_sts : List UInt32
  video : List Stamped
  audio : List Stamped

def Cast.start (ctx : CTX) : Cast where
  ctx := ctx
  video_sts := []
  audio_sts := []
  video := []
  audio := []

def stamped (sent : Option Sent) (sts : List UInt32) : List Stamped :=
  (sent.map fun f => { stamp := f.stamp, sts := sts }).toList

def step (s : Cast) : Input → Except Fault Cast
  | .video m => do
    let (_, sent, ctx) ← s.ctx.saveH264 m
    let sts := s.video_sts ++ [m.ts]
    return { s with ctx, video_sts := sts, video := s.video ++ stamped sent sts }
  | .audio m =>
    let (_, sent) := s.ctx.SaveAAC m
    let sts := s.audio_sts ++ [m.ts]
    .ok { s with audio_sts := sts, audio := s.audio ++ stamped sent sts }

/-! ## The stamps as they should be -/

/-- The differences between timestamps, each taken modulo 2^32. -/
def differences (sts : List UInt32) : List Nat :=
  List.zipWith (fun st st' => (st' - st).toNat) sts sts.tail

/-- The milliseconds from the first timestamp to the last, with so many ticks in each. -/
def elapsed (ticks : Nat) (sts : List UInt32) : Nat := ((differences sts).map (· / ticks)).sum

/-- The stamps count the milliseconds, never go back, go on when the difference is a millisecond
or more, and do not depend on where the timestamps wrap. -/
structure Timed (ticks : Nat) (log : List Stamped) : Prop where
  sums : ∀ e ∈ log, e.stamp = elapsed ticks e.sts
  ordered : log.Pairwise fun e e' => e.stamp ≤ e'.stamp
  advances : log.Pairwise fun e e' =>
    (∃ d, (differences e'.sts).getLast? = some d ∧ ticks ≤ d) → e.stamp < e'.stamp
  wraps : ∀ e ∈ log, ∀ k, e.stamp = elapsed ticks (e.sts.map (· + k))

/-- The stamps of the video are in ticks of 90 kHz, and those of the sound of 32 kHz. -/
def Cast.Timed (s : Cast) : Prop :=
  rtmp_livingcast.Timed 90 s.video ∧ rtmp_livingcast.Timed 32 s.audio

/-- No sound comes, and a packet that completes a frame comes while the video packets are less
than a millisecond apart. -/
def Cast.Still (s : Cast) : Input → Prop
  | .video m => ∀ rfc3984_ queue_, rfc3984_unpack s.ctx.rfc3984_ m = .ok (rfc3984_, queue_) →
    queue_ ≠ [] → ∀ d ∈ differences (s.video_sts ++ [m.ts]), d < 90
  | .audio _ => False

/-! ## Differences -/

section

variable {sts : List UInt32} {ticks : Nat} {log : List Stamped}

theorem elapsed_eq_zero (hticks : 0 < ticks) :
    elapsed ticks sts = 0 ↔ ∀ d ∈ differences sts, d < ticks := by
  unfold elapsed
  rw [List.sum_eq_zero_iff_forall_eq_nat]
  simp only [List.mem_map, forall_exists_index, and_imp, forall_apply_eq_imp_iff₂]
  refine forall₂_congr fun d _ => ?_
  rw [Nat.div_eq_zero_iff]
  omega

/-- A common offset of the timestamps, as a wrap gives it, changes nothing. -/
theorem differences_shift (k : UInt32) (sts : List UInt32) :
    differences (sts.map (· + k)) = differences sts := by
  unfold differences
  rw [← List.map_tail, List.zipWith_map]
  congr 1
  funext st st'
  have hsub : st' + k - (st + k) = st' - st := by grind
  rw [hsub]

theorem elapsed_shift (k : UInt32) (sts : List UInt32) :
    elapsed ticks (sts.map (· + k)) = elapsed ticks sts := by
  unfold elapsed
  rw [differences_shift]

theorem timed_nil (ticks : Nat) : Timed ticks [] where
  sums := nofun
  ordered := List.Pairwise.nil
  advances := List.Pairwise.nil
  wraps := nofun

/-- While the timestamps are less than a millisecond apart, 0 is the right stamp. -/
theorem timed_of_still (hticks : 0 < ticks)
    (hlog : ∀ e ∈ log, e.stamp = 0 ∧ ∀ d ∈ differences e.sts, d < ticks) : Timed ticks log := by
  have hsums : ∀ e ∈ log, e.stamp = elapsed ticks e.sts := by
    intro e he
    obtain ⟨hstamp, hd⟩ := hlog e he
    rw [hstamp, (elapsed_eq_zero hticks).mpr hd, Nat.cast_zero]
  refine ⟨hsums, ?_, ?_, ?_⟩
  · apply List.pairwise_of_forall_mem_list
    intro e he e' he'
    rw [(hlog e he).1, (hlog e' he').1]
  · apply List.pairwise_of_forall_mem_list
    rintro e - e' he' ⟨d, hlast, hle⟩
    have hlt := (hlog e' he').2 d (List.mem_of_getLast? hlast)
    omega
  · intro e he k
    rw [elapsed_shift]
    exact hsums e he

end

/-! ## The first packet, again and again -/

section

variable {c : CTX} {s t : Cast}

theorem put_unit_ne_nil (obuf om : List UInt8) : put_unit obuf om ≠ [] := by
  unfold put_unit
  split
  · simp
  · simp

theorem units_eq_nil {queue_ : List (List UInt8)} :
    (queue_.foldl put_unit []).length = 0 ↔ queue_ = [] := by
  rw [List.length_eq_zero_iff]
  rcases List.eq_nil_or_concat queue_ with rfl | ⟨front, om, hqueue⟩
  · simp
  · rw [hqueue, List.concat_eq_append, List.foldl_concat]
    simp [put_unit_ne_nil]

/-- The stamp of a frame whose packet counts as the first one. -/
theorem saveH264_first (hrunning : c.running_ = true) (hvideo : c.st_video_ ≤ 0) (m : Packet) :
    c.saveH264 m = (rfc3984_unpack c.rfc3984_ m).map fun (rfc3984_, queue_) =>
      (true,
        if queue_ = [] then none
        else
          let obuf := queue_.foldl put_unit []
          some { data := obuf, key := key_of obuf, stamp := 0 },
        { c with rfc3984_, st_video_last_ := m.ts, st_video_ := 0 }) := by
  have hfirst : ¬ c.st_video_ > 0 := by omega
  unfold CTX.saveH264
  rw [if_pos hrunning]
  simp only [if_neg hfirst]
  cases rfc3984_unpack c.rfc3984_ m with
  | error e => rfl
  | ok r =>
    obtain ⟨rfc3984_, queue_⟩ := r
    simp only [Except.map, pure, Except.pure, bind, Except.bind]
    by_cases hqueue : queue_ = []
    · subst hqueue
      rfl
    · have hlen := mt units_eq_nil.mp hqueue
      rw [if_pos (by omega), if_neg hqueue]
      rfl

/-- The stamp of the video never gets over 0, and that of the sound is always -1. -/
structure Cast.Stuck (s : Cast) : Prop where
  running : s.ctx.running_ = true
  video : s.ctx.st_video_ ≤ 0
  audio : s.ctx.st_audio_ = -1
  frames : ∀ e ∈ s.video, e.stamp = 0 ∧ ∀ d ∈ differences e.sts, d < 90
  silent : s.audio = []

/-- What a video packet does. -/
theorem Cast.Stuck.step_video (hs : s.Stuck) (m : Packet) :
    step s (.video m) = (rfc3984_unpack s.ctx.rfc3984_ m).map fun (rfc3984_, queue_) =>
      let sts := s.video_sts ++ [m.ts]
      { s with
        ctx := { s.ctx with rfc3984_, st_video_last_ := m.ts, st_video_ := 0 }
        video_sts := sts
        video := s.video ++ if queue_ = [] then [] else [{ stamp := 0, sts }] } := by
  unfold step
  simp only
  rw [saveH264_first hs.running hs.video]
  cases rfc3984_unpack s.ctx.rfc3984_ m with
  | error e => rfl
  | ok r =>
    obtain ⟨rfc3984_, queue_⟩ := r
    simp only [Except.map, pure, Except.pure, bind, Except.bind]
    by_cases hqueue : queue_ = []
    · rw [if_pos hqueue, if_pos hqueue]
      rfl
    · rw [if_neg hqueue, if_neg hqueue]
      rfl

theorem Cast.Stuck.step_audio (hs : s.Stuck) (m : Packet) :
    step s (.audio m) =
      let sts := s.audio_sts ++ [m.ts]
      .ok { s with audio_sts := sts, audio := s.audio ++ [{ stamp := -1, sts }] } := by
  unfold step CTX.SaveAAC
  simp only [hs.running, if_true, hs.audio]
  rfl

theorem Cast.Stuck.timed (hs : s.Stuck) : s.Timed := by
  refine ⟨timed_of_still (by decide) hs.frames, ?_⟩
  rw [hs.silent]
  exact timed_nil 32

theorem Cast.Stuck.step_still (a : Input) (hs : s.Stuck) (hstill : s.Still a)
    (ht : step s a = .ok t) : t.Stuck := by
  cases a with
  | audio m => cases hstill
  | video m =>
    rw [hs.step_video m] at ht
    cases hunpack : rfc3984_unpack s.ctx.rfc3984_ m with
    | error e =>
      rw [hunpack] at ht
      cases ht
    | ok r =>
      rw [hunpack] at ht
      cases ht
      refine ⟨hs.running, le_rfl, hs.audio, ?_, hs.silent⟩
      intro e he
      rw [List.mem_append] at he
      rcases he with hold | hnew
      · exact hs.frames e hold
      · by_cases hqueue : r.2 = []
        · simp [hqueue] at hnew
        · simp only [if_neg hqueue, List.mem_singleton] at hnew
          subst hnew
          exact ⟨rfl, hstill r.1 r.2 hunpack hqueue⟩

theorem Cast.Stuck.step_moving (a : Input) (hs : s.Stuck) (hmoving : ¬ s.Still a) :
    ∃ t, step s a = .ok t ∧ ¬ t.Timed := by
  cases a with
  | audio m =>
    refine ⟨_, hs.step_audio m, fun htimed => ?_⟩
    have hstamp := htimed.2.sums { stamp := -1, sts := s.audio_sts ++ [m.ts] } (by simp)
    simp only at hstamp
    omega
  | video m =>
    simp only [Cast.Still, not_forall] at hmoving
    obtain ⟨rfc3984_, queue_, hunpack, hqueue, d, hd, hfar⟩ := hmoving
    refine ⟨_, by rw [hs.step_video m, hunpack]; rfl, fun htimed => hfar ?_⟩
    have hstamp := htimed.1.sums { stamp := 0, sts := s.video_sts ++ [m.ts] } (by simp [hqueue])
    have hzero : elapsed 90 (s.video_sts ++ [m.ts]) = 0 := by
      simp only at hstamp
      omega
    exact (elapsed_eq_zero (by decide)).mp hzero d hd

/-- The stamps are right exactly while nothing needs a stamp other than 0. -/
theorem the_stamps_count_the_milliseconds_iff_they_stay_at_0 (payload_max_size : Int)
    (st_video_last_ st_audio_last_ : UInt32) (inputs : List Input) :
    let start := Cast.start (CTX.opened payload_max_size st_video_last_ st_audio_last_)
    (∀ done s, done <+: inputs → run step start done = .ok s → s.Timed) ↔
      Meets step Cast.Still start inputs := by
  intro start
  have hstart : start.Stuck := by
    refine ⟨rfl, ?_, rfl, ?_, rfl⟩
    · simp [start, Cast.start, CTX.opened]
    · intro e he
      cases he
  apply reached_iff_meets (I := Cast.Stuck)
  · intro s hs
    exact hs.timed
  · intro s a t hs hstill ht
    exact hs.step_still a hstill ht
  · intro s a hs hmoving
    exact hs.step_moving a hmoving
  · exact hstart

/-- Two frames 3000 ticks apart are both sent with 0, and the sound with -1. -/
theorem two_frames_have_one_stamp :
    ∃ s, run step (Cast.start (CTX.opened 1440 0 0))
        [.video ⟨[0x41, 1], 1000, true⟩, .video ⟨[0x41, 2], 4000, true⟩,
          .audio ⟨[0xFF, 0xF1], 0, true⟩] = .ok s ∧
      ¬ Timed 90 s.video ∧ ¬ Timed 32 s.audio := by
  refine ⟨_, rfl, fun hvideo => ?_, fun haudio => ?_⟩
  · have hsecond := hvideo.sums { stamp := 0, sts := [1000, 4000] } (by decide)
    revert hsecond
    decide
  · have hfirst := haudio.sums { stamp := -1, sts := [0] } (by decide)
    revert hfirst
    decide

end

end zonekey_mcu.rtmp_livingcast
