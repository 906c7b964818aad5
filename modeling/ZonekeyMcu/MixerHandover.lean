-- The way of the encoded pictures from the thread of the video mixer to its ticker. The
-- queue is guarded by a lock. The flag that says that the queue has something is not, and
-- the ticker clears it after it left the lock.
import ZonekeyMcu.Fault
import ZonekeyMcu.Lib.Returns
import ZonekeyMcu.Lib.Runs

open returns runs

namespace zonekey_mcu.video_mixer.handover

/-- The packets of one picture, by number. -/
abbrev MSQueue := List Nat

/-! ## The two threads -/

/-- Where the mixer thread is in step 4 of `one_step`. -/
inductive Worker
  | outside
  /-- With the lock, before `push_back`. -/
  | locked (rtps : MSQueue)
  /-- With the lock, after it. -/
  | pushed
  /-- Before `has_pending_ = true`. -/
  | unlocked
  deriving DecidableEq, Repr

/-- Where the ticker is in `channel_process`. -/
inductive Ticker
  | outside
  /-- Behind the test of `has_pending_`. -/
  | tested
  /-- In the loop, with the lock. -/
  | draining
  /-- Before `has_pending_ = false`. -/
  | drained
  deriving DecidableEq, Repr

inductive Lock
  | free
  | worker
  | ticker
  deriving DecidableEq, Repr

/-- `output` are the packets in `outputs[1]`, when that pin is linked. -/
structure CTX where
  fifo : List MSQueue
  has_pending : Bool
  running : Bool
  cs_fifo : Lock
  worker : Worker
  ticker : Ticker
  linked : Bool
  output : List Nat
  deriving DecidableEq, Repr

def CTX.new (linked : Bool) : CTX where
  fifo := []
  has_pending := false
  running := false
  cs_fifo := .free
  worker := .outside
  ticker := .outside
  linked := linked
  output := []

/-- `one_step` with the packets of the next picture, up to the lock. It does nothing while the
mixer does not run, and waits while the ticker has the lock. -/
def CTX.one_step (c : CTX) (rtps : MSQueue) : CTX :=
  if c.worker = .outside ∧ c.running = true ∧ c.cs_fifo = .free then
    { c with worker := .locked rtps, cs_fifo := .worker }
  else c

/-- The next statement of the mixer thread. -/
def CTX.work (c : CTX) : CTX :=
  match c.worker with
  | .outside => c
  | .locked rtps => { c with fifo := c.fifo ++ [rtps], worker := .pushed }
  | .pushed => { c with cs_fifo := .free, worker := .unlocked }
  | .unlocked => { c with has_pending := true, worker := .outside }

/-- The next statement of the ticker. From outside it tests the flag. -/
def CTX.channel_process (c : CTX) : CTX :=
  match c.ticker with
  | .outside => if c.has_pending then { c with ticker := .tested } else c
  | .tested =>
    if c.cs_fifo = .free then { c with cs_fifo := .ticker, ticker := .draining } else c
  | .draining => match c.fifo with
    | q :: fifo => { c with fifo := fifo, output := if c.linked then c.output ++ q else c.output }
    | [] => { c with cs_fifo := .free, ticker := .drained }
  | .drained => { c with has_pending := false, ticker := .outside }

/-- `preprocess`: the ticker empties the queue under the lock, then the mixer runs. -/
def CTX.preprocess (c : CTX) : CTX :=
  if c.ticker = .outside ∧ c.cs_fifo = .free then { c with fifo := [], running := true } else c

def CTX.postprocess (c : CTX) : CTX := { c with running := false }

inductive Action
  | one_step (rtps : MSQueue)
  | work
  | channel_process
  | preprocess
  | postprocess
  deriving DecidableEq, Repr

def step (c : CTX) : Action → Except Fault CTX
  | .one_step rtps => .ok (c.one_step rtps)
  | .work => .ok c.work
  | .channel_process => .ok c.channel_process
  | .preprocess => .ok c.preprocess
  | .postprocess => .ok c.postprocess

/-! ## The flag -/

/-- While both threads are outside, the flag says whether the queue has something. -/
def CTX.NothingStuck (c : CTX) : Prop :=
  c.worker = .outside → c.ticker = .outside → c.fifo ≠ [] → c.has_pending = true

/-- The ticker clears the flag while the queue is still empty, or while the mixer thread is on
its way to set the flag. -/
def CTX.clears_in_time (c : CTX) : Action → Prop
  | .channel_process => c.ticker = .drained → c.fifo = [] ∨ c.worker ≠ .outside
  | _ => True

/-- What is in the queue is announced, or will be by the mixer thread. -/
def CTX.Announced (c : CTX) : Prop :=
  c.fifo ≠ [] → c.has_pending = true ∨ c.worker ≠ .outside

section

variable {c : CTX}

theorem Announced.nothing_stuck (h : c.Announced) : c.NothingStuck := fun hw _ hf =>
  (h hf).resolve_right fun hne => hne hw

theorem one_step_announced (rtps : MSQueue) (h : c.Announced) : (c.one_step rtps).Announced := by
  unfold CTX.one_step
  split
  · exact fun _ => .inr (by simp)
  · exact h

theorem work_announced (h : c.Announced) : c.work.Announced := by
  unfold CTX.work
  cases hw : c.worker with
  | outside => exact h
  | locked rtps => exact fun _ => .inr (by simp)
  | pushed => exact fun _ => .inr (by simp)
  | unlocked => exact fun _ => .inl rfl

theorem channel_process_announced (h : c.Announced)
    (hc : c.ticker = .drained → c.fifo = [] ∨ c.worker ≠ .outside) :
    c.channel_process.Announced := by
  unfold CTX.channel_process
  cases ht : c.ticker with
  | outside =>
    dsimp only
    split
    · exact h
    · exact h
  | tested =>
    dsimp only
    split
    · exact h
    · exact h
  | draining =>
    dsimp only
    cases hf : c.fifo with
    | nil => exact fun hne => absurd rfl hne
    | cons q fifo => exact fun _ => h (by simp [hf])
  | drained => exact fun hf => .inr ((hc ht).resolve_left hf)

theorem preprocess_announced (h : c.Announced) : c.preprocess.Announced := by
  unfold CTX.preprocess
  split
  · exact fun hne => absurd rfl hne
  · exact h

end

theorem in_time_announced (c : CTX) (a : Action) (h : c.Announced) (hc : c.clears_in_time a) :
    ∃ c', step c a = .ok c' ∧ c'.Announced := by
  cases a with
  | one_step rtps => exact ⟨_, rfl, one_step_announced rtps h⟩
  | work => exact ⟨_, rfl, work_announced h⟩
  | channel_process => exact ⟨_, rfl, channel_process_announced h hc⟩
  | preprocess => exact ⟨_, rfl, preprocess_announced h⟩
  | postprocess => exact ⟨_, rfl, h⟩

/-- A clear that comes later leaves the queue with pictures and without a flag. -/
theorem nothing_stuck_in_time (c : CTX) (a : Action) (c' : CTX) (_ : c.Announced)
    (hstep : step c a = .ok c') (hn : c'.NothingStuck) : c.clears_in_time a := by
  cases a with
  | channel_process =>
    intro ht
    simp only [step, CTX.channel_process, ht] at hstep
    cases hstep
    by_contra hno
    rw [not_or, not_not] at hno
    have := hn hno.2 rfl hno.1
    cases this
  | _ => trivial

/-! ## The law -/

/-- No picture stays in the queue exactly in the runs in which the ticker never clears the flag
after a picture came since its drain, with the mixer thread past its `has_pending_ = true`. -/
theorem no_picture_is_stuck_while_the_flag_is_cleared_in_time (linked : Bool)
    (acts : List Action) :
    Along step CTX.NothingStuck (CTX.new linked) acts ↔
      Meets step CTX.clears_in_time (CTX.new linked) acts :=
  along_iff_meets (fun _ h => Announced.nothing_stuck h) in_time_announced nothing_stuck_in_time
    acts fun hne => absurd rfl hne

/-- A second picture comes between the end of the drain and the clear of the flag. -/
def pushed_after_drain : List Action :=
  [.preprocess, .one_step [1, 2], .work, .work, .work, .channel_process, .channel_process,
    .channel_process, .channel_process, .one_step [3, 4], .work, .work, .work, .channel_process]

/-- The second picture stays in the queue, and no flag tells the ticker. -/
theorem a_picture_behind_the_drain_is_stuck :
    (run step (CTX.new true) pushed_after_drain).map
        (fun c => (c.fifo, c.has_pending, c.worker, c.ticker, c.output)) =
        .ok ([[3, 4]], false, .outside, .outside, [1, 2]) ∧
      ¬ ∀ acts, Along step CTX.NothingStuck (CTX.new true) acts := by
  have hrun : (run step (CTX.new true) pushed_after_drain).map
      (fun c => (c.fifo, c.has_pending, c.worker, c.ticker, c.output)) =
      .ok ([[3, 4]], false, .outside, .outside, [1, 2]) := by decide +kernel
  refine ⟨hrun, fun hall => ?_⟩
  obtain ⟨c, hc, heq⟩ := map_inv hrun
  simp only [Prod.mk.injEq] at heq
  obtain ⟨hfifo, hflag, hw, ht, -⟩ := heq
  have := along_end (hall pushed_after_drain) hc hw ht (by simp [hfifo])
  rw [hflag] at this
  cases this

end zonekey_mcu.video_mixer.handover
