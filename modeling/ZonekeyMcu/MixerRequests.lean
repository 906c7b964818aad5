-- The requests to the thread of the video mixer. A requester writes the command and its
-- argument into slots, signals one event and waits for the other one. The mixer thread looks
-- for a request once in each turn, carries it out, and answers in the slots.
import ZonekeyMcu.VideoMixer
import ZonekeyMcu.Lib.Returns
import ZonekeyMcu.Lib.Runs

open returns runs

namespace zonekey_mcu.video_mixer.requests

/-! ## The two threads -/

/-- The calls that go through `req`. `quit` is the destructor. -/
inductive Command
  | set_zorder (id : Int) (oper : ZOrderOper)
  | set_encoder (setting : EncoderSetting)
  | get_encoder
  | quit
  deriving DecidableEq

/-- The number that the call passes to `req`. -/
def Command.code : Command → Int
  | .set_zorder _ _ => 2
  | .set_encoder _ => 1
  | .get_encoder => 3
  | .quit => -1

/-- The result of a call, and the setting that `get_encoder` gives. -/
abbrev Answer := Int × Option EncoderSetting

/-- The statement of `run` that comes next. -/
inductive Worker
  /-- `evt_req_.wait(0)` of `has_req`. -/
  | checking
  /-- `evt_req_.reset()` of `has_req`. -/
  | clearing
  /-- The switch over `req_`. -/
  | executing
  /-- `evt_req_.reset()` of `reply`. The flag says whether the loop ends after it. -/
  | answering (quit : Bool)
  /-- `evt_res_.signal()` of `reply`. -/
  | replying (quit : Bool)
  /-- `one_step` and the sleep. -/
  | mixing
  | ended
  deriving DecidableEq, Repr

/-- The statement of the call that comes next. -/
inductive Requester
  | idle
  /-- `req_ = cmd`, after the argument was stored. -/
  | stored (cmd : Command)
  /-- `evt_req_.signal()`. -/
  | coded (cmd : Command)
  /-- `evt_res_.wait()`. -/
  | waiting (cmd : Command)
  /-- `evt_res_.reset()`. -/
  | resetting (cmd : Command)
  /-- `return res_`. -/
  | returning (cmd : Command)
  /-- After the destructor. -/
  | gone
  deriving DecidableEq

/-- `asked` are the calls, `executed` what the switch did with its results, and `returned` the
calls that came back with theirs, each in order. -/
structure State where
  req : Int
  res : Int
  evt_req : Bool
  evt_res : Bool
  t_channel_zorder : Int × ZOrderOper
  t_encoder_desc : EncoderSetting
  mixer : CTX
  worker : Worker
  requester : Requester
  asked : List Command
  executed : List (Command × Answer)
  returned : List (Command × Answer)

/-- The slots start with whatever their memory holds. -/
def State.start (req res : Int) (zorder : Int × ZOrderOper) (setting : EncoderSetting)
    (mixer : CTX) : State where
  req := req
  res := res
  evt_req := false
  evt_res := false
  t_channel_zorder := zorder
  t_encoder_desc := setting
  mixer := mixer
  worker := .checking
  requester := .idle
  asked := []
  executed := []
  returned := []

/-- What a call makes of the slots when it returns. `get_encoder` returns 0 and the setting. -/
def Command.answer (cmd : Command) (res : Int) (setting : EncoderSetting) : Answer :=
  match cmd with
  | .get_encoder => (0, some setting)
  | _ => (res, none)

/-- The switch over `req_`. What it did goes to `executed`. -/
def State.execute (s : State) : Except Fault State :=
  if s.req = -1 then
    .ok { s with res := -1, worker := .answering true
                 executed := s.executed ++ [(.quit, Command.quit.answer (-1) s.t_encoder_desc)] }
  else if s.req = 1 then
    .ok { s with res := 0, mixer := s.mixer.set_encoder s.t_encoder_desc
                 worker := .answering false
                 executed := s.executed ++ [(.set_encoder s.t_encoder_desc,
                   (Command.set_encoder s.t_encoder_desc).answer 0 s.t_encoder_desc)] }
  else if s.req = 3 then
    .ok { s with res := 0, t_encoder_desc := s.mixer.get_encoder, worker := .answering false
                 executed := s.executed ++ [(.get_encoder,
                   Command.get_encoder.answer 0 s.mixer.get_encoder)] }
  else if s.req = 2 then
    (s.mixer.rezorder s.t_channel_zorder.1 s.t_channel_zorder.2).map fun r =>
      { s with res := r.1, mixer := r.2, worker := .answering false
               executed := s.executed ++
                 [(.set_zorder s.t_channel_zorder.1 s.t_channel_zorder.2,
                   (Command.set_zorder s.t_channel_zorder.1 s.t_channel_zorder.2).answer r.1
                     s.t_encoder_desc)] }
  else .ok { s with worker := .answering false }

/-- The next statement of the mixer thread. -/
def State.work (s : State) : Except Fault State :=
  match s.worker with
  | .checking => .ok { s with worker := if s.evt_req then .clearing else .mixing }
  | .clearing => .ok { s with evt_req := false, worker := .executing }
  | .executing => s.execute
  | .answering quit => .ok { s with evt_req := false, worker := .replying quit }
  | .replying quit => .ok { s with evt_res := true, worker := if quit then .ended else .mixing }
  | .mixing => .ok { s with worker := .checking }
  | .ended => .ok s

/-- A call starts and stores its argument. There is one requester at a time. -/
def State.call (s : State) (cmd : Command) : State :=
  if s.requester = .idle then
    { s with
      requester := .stored cmd
      asked := s.asked ++ [cmd]
      t_channel_zorder := match cmd with
        | .set_zorder id oper => (id, oper)
        | _ => s.t_channel_zorder
      t_encoder_desc := match cmd with
        | .set_encoder setting => setting
        | _ => s.t_encoder_desc }
  else s

/-- The next statement of the call. -/
def State.req_step (s : State) : State :=
  match s.requester with
  | .idle => s
  | .stored cmd => { s with req := cmd.code, requester := .coded cmd }
  | .coded cmd => { s with evt_req := true, requester := .waiting cmd }
  | .waiting cmd => if s.evt_res then { s with requester := .resetting cmd } else s
  | .resetting cmd => { s with evt_res := false, requester := .returning cmd }
  | .returning cmd =>
    { s with
      returned := s.returned ++ [(cmd, cmd.answer s.res s.t_encoder_desc)]
      requester := if cmd = .quit then .gone else .idle }
  | .gone => s

inductive Action
  | work
  | call (cmd : Command)
  | req_step
  /-- The calls of other threads on the channels. -/
  | get_channel
  | free_channel (cid : Int)
  | set_channel_desc (desc : ChannelDesc)

def step (s : State) : Action → Except Fault State
  | .work => s.work
  | .call cmd => .ok (s.call cmd)
  | .req_step => .ok s.req_step
  | .get_channel => s.mixer.get_channel.map fun r => { s with mixer := r.2 }
  | .free_channel cid => (s.mixer.free_channel cid).map fun r => { s with mixer := r.2 }
  | .set_channel_desc desc => (s.mixer.set_channel_desc desc).map fun r => { s with mixer := r.2 }

/-! ## The property -/

/-- The requests are executed in the order of the calls, none twice, and each call that has
returned has the result that its own execution computed. -/
structure Paired (s : State) : Prop where
  in_order : s.executed.map Prod.fst <+: s.asked
  own : s.returned <+: s.executed
  one_open : s.asked.length ≤ s.returned.length + 1
  all_returned : s.requester = .idle ∨ s.requester = .gone →
    s.returned = s.executed ∧ s.executed.map Prod.fst = s.asked

/-- The request of a waiting requester was executed, is still signalled, or is in the hands of
the mixer thread, which carries it out next. -/
def State.Pending (s : State) : Prop :=
  ∀ cmd, s.requester = .waiting cmd →
    s.executed.length = s.asked.length ∨ s.evt_req = true ∨ s.worker = .executing

/-! ## The invariant -/

/-- The mixer thread is not at a request. -/
def Worker.quiet (w : Worker) : Prop := w = .checking ∨ w = .mixing

/-- Where the mixer thread is after the answer to `cmd`. -/
def Worker.after (w : Worker) (cmd : Command) : Prop :=
  if cmd = .quit then w = .ended else w.quiet

/-- The slots hold the argument of the command. -/
def State.holds (s : State) : Command → Prop
  | .set_zorder id oper => s.t_channel_zorder = (id, oper)
  | .set_encoder setting => s.t_encoder_desc = setting
  | _ => True

/-- The calls, and the events, while no request is open. -/
structure Closed (s : State) : Prop where
  req : s.evt_req = false
  res : s.evt_res = false
  executed : s.executed = s.returned
  asked : s.asked = s.returned.map Prod.fst

/-- The call of `cmd` is open, and was not executed yet. -/
structure Open (s : State) (cmd : Command) (evt_req : Bool) : Prop where
  holds : s.holds cmd
  req : s.evt_req = evt_req
  res : s.evt_res = false
  executed : s.executed = s.returned
  asked : s.asked = s.returned.map Prod.fst ++ [cmd]

/-- The call of `cmd` is open, and its answer is in the slots. -/
structure Done (s : State) (cmd : Command) (evt_res : Bool) : Prop where
  req : s.evt_req = false
  res : s.evt_res = evt_res
  executed : s.executed = s.returned ++ [(cmd, cmd.answer s.res s.t_encoder_desc)]
  asked : s.asked = s.returned.map Prod.fst ++ [cmd]

/-- The places of both threads, with the events and the slots that go with them. -/
inductive Phase (s : State) : Prop
  | idle (hr : s.requester = .idle) (hw : s.worker.quiet) (h : Closed s)
  | gone (hr : s.requester = .gone) (hw : s.worker = .ended) (h : Closed s)
  | stored (cmd : Command) (hr : s.requester = .stored cmd) (hw : s.worker.quiet)
      (h : Open s cmd false)
  | coded (cmd : Command) (hr : s.requester = .coded cmd) (hw : s.worker.quiet)
      (hreq : s.req = cmd.code) (h : Open s cmd false)
  | signalled (cmd : Command) (hr : s.requester = .waiting cmd)
      (hw : s.worker.quiet ∨ s.worker = .clearing) (hreq : s.req = cmd.code) (h : Open s cmd true)
  | taken (cmd : Command) (hr : s.requester = .waiting cmd) (hw : s.worker = .executing)
      (hreq : s.req = cmd.code) (h : Open s cmd false)
  | executed (cmd : Command) (hr : s.requester = .waiting cmd)
      (hw : s.worker = .answering (cmd = .quit) ∨ s.worker = .replying (cmd = .quit))
      (h : Done s cmd false)
  | replied (cmd : Command) (hr : s.requester = .waiting cmd ∨ s.requester = .resetting cmd)
      (hw : s.worker.after cmd) (h : Done s cmd true)
  | returning (cmd : Command) (hr : s.requester = .returning cmd) (hw : s.worker.after cmd)
      (h : Done s cmd false)

theorem start_phase (req res : Int) (zorder : Int × ZOrderOper) (setting : EncoderSetting)
    (mixer : CTX) : Phase (State.start req res zorder setting mixer) :=
  .idle rfl (.inl rfl) ⟨rfl, rfl, rfl, rfl⟩

section

variable {s t : State}

/-! ## What the invariant says -/

theorem Closed.paired (h : Closed s) : Paired s := by
  refine ⟨?_, ?_, ?_, fun _ => ⟨h.executed.symm, ?_⟩⟩
  · exact ⟨[], by rw [List.append_nil, h.executed, h.asked]⟩
  · exact ⟨[], by rw [List.append_nil, h.executed]⟩
  · rw [h.asked, List.length_map]
    exact Nat.le_succ _
  · rw [h.executed, h.asked]

theorem Open.paired {cmd : Command} {evt_req : Bool} (h : Open s cmd evt_req)
    (hidle : s.requester ≠ .idle) (hgone : s.requester ≠ .gone) : Paired s := by
  refine ⟨?_, ?_, ?_, fun hr => ?_⟩
  · rw [h.executed, h.asked]
    exact List.prefix_append _ _
  · exact ⟨[], by rw [List.append_nil, h.executed]⟩
  · rw [h.asked, List.length_append, List.length_map]
    exact Nat.le_refl _
  · exact absurd hr (not_or_intro hidle hgone)

theorem Done.paired {cmd : Command} {evt_res : Bool} (h : Done s cmd evt_res)
    (hidle : s.requester ≠ .idle) (hgone : s.requester ≠ .gone) : Paired s := by
  refine ⟨?_, ?_, ?_, fun hr => ?_⟩
  · exact ⟨[], by rw [List.append_nil, h.executed, h.asked, List.map_append]; rfl⟩
  · rw [h.executed]
    exact List.prefix_append _ _
  · rw [h.asked, List.length_append, List.length_map]
    exact Nat.le_refl _
  · exact absurd hr (not_or_intro hidle hgone)

theorem Phase.paired (h : Phase s) : Paired s := by
  cases h with
  | idle _ _ h => exact h.paired
  | gone _ _ h => exact h.paired
  | stored cmd hr _ h => exact h.paired (by simp [hr]) (by simp [hr])
  | coded cmd hr _ _ h => exact h.paired (by simp [hr]) (by simp [hr])
  | signalled cmd hr _ _ h => exact h.paired (by simp [hr]) (by simp [hr])
  | taken cmd hr _ _ h => exact h.paired (by simp [hr]) (by simp [hr])
  | executed cmd hr _ h => exact h.paired (by simp [hr]) (by simp [hr])
  | replied cmd hr _ h =>
    rcases hr with hr | hr
    · exact h.paired (by simp [hr]) (by simp [hr])
    · exact h.paired (by simp [hr]) (by simp [hr])
  | returning cmd hr _ h => exact h.paired (by simp [hr]) (by simp [hr])

theorem Done.all_executed {cmd : Command} {evt_res : Bool} (h : Done s cmd evt_res) :
    s.executed.length = s.asked.length := by
  rw [h.executed, h.asked, List.length_append, List.length_append, List.length_map]
  rfl

/-- Where the mixer thread is while the call of `cmd` waits. -/
theorem Phase.waits {cmd : Command} (h : Phase s) (hwait : s.requester = .waiting cmd) :
    ((s.worker.quiet ∨ s.worker = .clearing) ∧ s.req = cmd.code ∧ Open s cmd true) ∨
    (s.worker = .executing ∧ s.req = cmd.code ∧ Open s cmd false) ∨
    ((s.worker = .answering (cmd = .quit) ∨ s.worker = .replying (cmd = .quit)) ∧
      Done s cmd false) ∨
    Done s cmd true := by
  cases h with
  | idle hr _ _ => rw [hr] at hwait; cases hwait
  | gone hr _ _ => rw [hr] at hwait; cases hwait
  | stored _ hr _ _ => rw [hr] at hwait; cases hwait
  | coded _ hr _ _ _ => rw [hr] at hwait; cases hwait
  | signalled _ hr hw hreq h =>
    cases hr.symm.trans hwait
    exact .inl ⟨hw, hreq, h⟩
  | taken _ hr hw hreq h =>
    cases hr.symm.trans hwait
    exact .inr (.inl ⟨hw, hreq, h⟩)
  | executed _ hr hw h =>
    cases hr.symm.trans hwait
    exact .inr (.inr (.inl ⟨hw, h⟩))
  | replied _ hr _ h =>
    rcases hr with hr | hr
    · cases hr.symm.trans hwait
      exact .inr (.inr (.inr h))
    · rw [hr] at hwait; cases hwait
  | returning _ hr _ _ => rw [hr] at hwait; cases hwait

theorem Phase.pending (h : Phase s) : s.Pending := by
  intro cmd hwait
  rcases h.waits hwait with ⟨-, -, h⟩ | ⟨hw, -, -⟩ | ⟨-, h⟩ | h
  · exact .inr (.inl h.req)
  · exact .inr (.inr hw)
  · exact .inl h.all_executed
  · exact .inl h.all_executed

/-! ## A step -/

theorem Closed.move (h : Closed s) (w : Worker) (r : Requester) (mixer : CTX) :
    Closed { s with worker := w, requester := r, mixer := mixer } :=
  ⟨h.req, h.res, h.executed, h.asked⟩

theorem Open.move {cmd : Command} {evt_req : Bool} (h : Open s cmd evt_req) (w : Worker)
    (r : Requester) (mixer : CTX) :
    Open { s with worker := w, requester := r, mixer := mixer } cmd evt_req :=
  ⟨h.holds, h.req, h.res, h.executed, h.asked⟩

theorem Done.move {cmd : Command} {evt_res : Bool} (h : Done s cmd evt_res) (w : Worker)
    (r : Requester) (mixer : CTX) :
    Done { s with worker := w, requester := r, mixer := mixer } cmd evt_res :=
  ⟨h.req, h.res, h.executed, h.asked⟩

/-- The calls on the channels touch neither the slots nor the events. -/
theorem Phase.with_mixer (h : Phase s) (mixer : CTX) : Phase { s with mixer := mixer } := by
  cases h with
  | idle hr hw h => exact .idle hr hw (h.move _ _ _)
  | gone hr hw h => exact .gone hr hw (h.move _ _ _)
  | stored cmd hr hw h => exact .stored cmd hr hw (h.move _ _ _)
  | coded cmd hr hw hreq h => exact .coded cmd hr hw hreq (h.move _ _ _)
  | signalled cmd hr hw hreq h => exact .signalled cmd hr hw hreq (h.move _ _ _)
  | taken cmd hr hw hreq h => exact .taken cmd hr hw hreq (h.move _ _ _)
  | executed cmd hr hw h => exact .executed cmd hr hw (h.move _ _ _)
  | replied cmd hr hw h => exact .replied cmd hr hw (h.move _ _ _)
  | returning cmd hr hw h => exact .returning cmd hr hw (h.move _ _ _)

theorem Phase.mixer_call (h : Phase s) {c : Except Fault (Int × CTX)}
    (hstep : (c.map fun r => { s with mixer := r.2 }) = .ok t) : Phase t := by
  obtain ⟨r, -, rfl⟩ := map_inv hstep
  exact h.with_mixer r.2

/-- The switch carries out the request of the open call, with the argument of that call. -/
theorem execute_done {cmd : Command} (h : Open s cmd false) (hreq : s.req = cmd.code)
    (hstep : s.execute = .ok t) :
    Done t cmd false ∧ t.requester = s.requester ∧ t.worker = .answering (cmd = .quit) := by
  have hholds := h.holds
  cases cmd with
  | set_zorder id oper =>
    simp only [State.holds] at hholds
    simp only [State.execute, hreq, Command.code, hholds] at hstep
    obtain ⟨r, -, rfl⟩ := map_inv hstep
    exact ⟨⟨h.req, h.res, by rw [h.executed], h.asked⟩, rfl, rfl⟩
  | set_encoder setting =>
    simp only [State.holds] at hholds
    simp only [State.execute, hreq, Command.code, hholds] at hstep
    cases hstep
    exact ⟨⟨h.req, h.res, by rw [h.executed], h.asked⟩, rfl, rfl⟩
  | get_encoder =>
    simp only [State.execute, hreq, Command.code] at hstep
    cases hstep
    exact ⟨⟨h.req, h.res, by rw [h.executed], h.asked⟩, rfl, rfl⟩
  | quit =>
    simp only [State.execute, hreq, Command.code] at hstep
    cases hstep
    exact ⟨⟨h.req, h.res, by rw [h.executed], h.asked⟩, rfl, rfl⟩

/-- While no request is signalled, the mixer thread only goes on mixing. -/
theorem quiet_work (hw : s.worker.quiet) (hreq : s.evt_req = false) :
    ∃ w : Worker, w.quiet ∧ s.work = .ok { s with worker := w } := by
  rcases hw with hw | hw
  · exact ⟨.mixing, .inr rfl, by simp [State.work, hw, hreq]⟩
  · exact ⟨.checking, .inl rfl, by simp [State.work, hw]⟩

theorem after_work {cmd : Command} (hw : s.worker.after cmd) (hreq : s.evt_req = false) :
    ∃ w : Worker, w.after cmd ∧ s.work = .ok { s with worker := w } := by
  by_cases hq : cmd = .quit
  · simp only [Worker.after, if_pos hq] at hw ⊢
    refine ⟨.ended, rfl, ?_⟩
    simp only [State.work, hw]
    rw [← hw]
  · simp only [Worker.after, if_neg hq] at hw ⊢
    exact quiet_work hw hreq

theorem work_phase (h : Phase s) (hstep : s.work = .ok t) : Phase t := by
  cases h with
  | idle hr hw h =>
    obtain ⟨w, hquiet, heq⟩ := quiet_work hw h.req
    rw [heq] at hstep
    cases hstep
    exact .idle hr hquiet (h.move _ _ _)
  | gone hr hw h =>
    simp only [State.work, hw] at hstep
    cases hstep
    exact .gone hr hw h
  | stored cmd hr hw h =>
    obtain ⟨w, hquiet, heq⟩ := quiet_work hw h.req
    rw [heq] at hstep
    cases hstep
    exact .stored cmd hr hquiet (h.move _ _ _)
  | coded cmd hr hw hreq h =>
    obtain ⟨w, hquiet, heq⟩ := quiet_work hw h.req
    rw [heq] at hstep
    cases hstep
    exact .coded cmd hr hquiet hreq (h.move _ _ _)
  | signalled cmd hr hw hreq h =>
    rcases hw with (hw | hw) | hw
    · simp only [State.work, hw, h.req, if_true] at hstep
      cases hstep
      exact .signalled cmd hr (.inr rfl) hreq ⟨h.holds, rfl, h.res, h.executed, h.asked⟩
    · simp only [State.work, hw] at hstep
      cases hstep
      exact .signalled cmd hr (.inl (.inl rfl)) hreq (h.move _ _ _)
    · simp only [State.work, hw] at hstep
      cases hstep
      exact .taken cmd hr rfl hreq ⟨h.holds, rfl, h.res, h.executed, h.asked⟩
  | taken cmd hr hw hreq h =>
    simp only [State.work, hw] at hstep
    obtain ⟨hdone, hrt, hwt⟩ := execute_done h hreq hstep
    exact .executed cmd (hrt.trans hr) (.inl hwt) hdone
  | executed cmd hr hw h =>
    rcases hw with hw | hw
    · simp only [State.work, hw] at hstep
      cases hstep
      exact .executed cmd hr (.inr rfl) ⟨rfl, h.res, h.executed, h.asked⟩
    · simp only [State.work, hw] at hstep
      cases hstep
      refine .replied cmd (.inl hr) ?_ ⟨h.req, rfl, h.executed, h.asked⟩
      by_cases hq : cmd = .quit
      · simp [Worker.after, hq]
      · simp [Worker.after, Worker.quiet, hq]
  | replied cmd hr hw h =>
    obtain ⟨w, hafter, heq⟩ := after_work hw h.req
    rw [heq] at hstep
    cases hstep
    exact .replied cmd hr hafter (h.move _ _ _)
  | returning cmd hr hw h =>
    obtain ⟨w, hafter, heq⟩ := after_work hw h.req
    rw [heq] at hstep
    cases hstep
    exact .returning cmd hr hafter (h.move _ _ _)

theorem call_phase (h : Phase s) (cmd : Command) : Phase (s.call cmd) := by
  unfold State.call
  split
  · rename_i hr
    cases h with
    | idle _ hw h =>
      refine .stored cmd rfl hw ⟨?_, h.req, h.res, h.executed, by rw [h.asked]⟩
      cases cmd <;> simp [State.holds]
    | gone hr' _ _ => rw [hr'] at hr; cases hr
    | stored _ hr' _ _ => rw [hr'] at hr; cases hr
    | coded _ hr' _ _ _ => rw [hr'] at hr; cases hr
    | signalled _ hr' _ _ _ => rw [hr'] at hr; cases hr
    | taken _ hr' _ _ _ => rw [hr'] at hr; cases hr
    | executed _ hr' _ _ => rw [hr'] at hr; cases hr
    | replied _ hr' _ _ => rw [hr] at hr'; simp at hr'
    | returning _ hr' _ _ => rw [hr'] at hr; cases hr
  · exact h

theorem req_step_phase (h : Phase s) : Phase s.req_step := by
  have hsame := h
  cases h with
  | idle hr hw h => simpa only [State.req_step, hr] using hsame
  | gone hr hw h => simpa only [State.req_step, hr] using hsame
  | stored cmd hr hw h =>
    simp only [State.req_step, hr]
    exact .coded cmd rfl hw rfl ⟨h.holds, h.req, h.res, h.executed, h.asked⟩
  | coded cmd hr hw hreq h =>
    simp only [State.req_step, hr]
    exact .signalled cmd rfl (.inl hw) hreq ⟨h.holds, rfl, h.res, h.executed, h.asked⟩
  | signalled cmd hr hw hreq h => simpa [State.req_step, hr, h.res] using hsame
  | taken cmd hr hw hreq h => simpa [State.req_step, hr, h.res] using hsame
  | executed cmd hr hw h => simpa [State.req_step, hr, h.res] using hsame
  | replied cmd hr hw h =>
    rcases hr with hr | hr
    · simp only [State.req_step, hr, h.res, if_true]
      exact .replied cmd (.inr rfl) hw ⟨h.req, rfl, h.executed, h.asked⟩
    · simp only [State.req_step, hr]
      exact .returning cmd rfl hw ⟨h.req, rfl, h.executed, h.asked⟩
  | returning cmd hr hw h =>
    simp only [State.req_step, hr]
    have hclosed : Closed { s with
        returned := s.returned ++ [(cmd, cmd.answer s.res s.t_encoder_desc)]
        requester := if cmd = .quit then .gone else .idle } :=
      ⟨h.req, h.res, h.executed, by rw [h.asked, List.map_append]; rfl⟩
    by_cases hq : cmd = .quit
    · exact .gone (by simp [hq]) (by simpa [Worker.after, hq] using hw) hclosed
    · exact .idle (by simp [hq]) (by simpa [Worker.after, hq] using hw) hclosed

end

theorem step_phase (s : State) (a : Action) (t : State) (h : Phase s) (hstep : step s a = .ok t) :
    Phase t := by
  cases a with
  | work => exact work_phase h hstep
  | call cmd =>
    cases hstep
    exact call_phase h cmd
  | req_step =>
    cases hstep
    exact req_step_phase h
  | get_channel => exact h.mixer_call hstep
  | free_channel cid => exact h.mixer_call hstep
  | set_channel_desc desc => exact h.mixer_call hstep

/-! ## The answer comes -/

/-- The mixer thread answers the waiting call of `cmd` in at most `n` statements of its own. -/
def State.Replies (s : State) (cmd : Command) (n : Nat) : Prop :=
  ∃ k ≤ n, ∃ t, run step s (List.replicate k .work) = .ok t ∧ t.requester = .waiting cmd ∧
    t.evt_res = true ∧ t.executed.length = t.asked.length

/-- The call is a move on which `rezorder` leaves the array. -/
def State.Overruns (s : State) (cmd : Command) : Prop :=
  ∃ id oper e, cmd = .set_zorder id oper ∧ s.mixer.rezorder id oper = .error e

section

variable {s t : State} {cmd : Command} {n : Nat}

theorem Replies.mono {m : Nat} (h : s.Replies cmd n) (hle : n ≤ m) : s.Replies cmd m := by
  obtain ⟨k, hk, hrun⟩ := h
  exact ⟨k, Nat.le_trans hk hle, hrun⟩

/-- One statement before. -/
theorem Replies.before (hwork : s.work = .ok t) (h : t.Replies cmd n) :
    s.Replies cmd (n + 1) := by
  obtain ⟨k, hk, u, hrun, hu⟩ := h
  refine ⟨k + 1, Nat.succ_le_succ hk, u, ?_, hu⟩
  rw [List.replicate_succ, run_cons_ok _ (show step s .work = .ok t from hwork)]
  exact hrun

theorem replied_replies (hr : s.requester = .waiting cmd) (h : Done s cmd true) :
    s.Replies cmd 0 :=
  ⟨0, Nat.le_refl 0, s, rfl, hr, h.res, h.all_executed⟩

theorem replying_replies {quit : Bool} (hr : s.requester = .waiting cmd)
    (hw : s.worker = .replying quit) (h : Done s cmd false) : s.Replies cmd 1 := by
  have hwork : s.work =
      .ok { s with evt_res := true, worker := if quit then .ended else .mixing } := by
    simp only [State.work, hw]
  exact Replies.before hwork (replied_replies hr ⟨h.req, rfl, h.executed, h.asked⟩)

theorem answering_replies {quit : Bool} (hr : s.requester = .waiting cmd)
    (hw : s.worker = .answering quit) (h : Done s cmd false) : s.Replies cmd 2 := by
  have hwork : s.work = .ok { s with evt_req := false, worker := .replying quit } := by
    simp only [State.work, hw]
  exact Replies.before hwork (replying_replies hr rfl ⟨rfl, h.res, h.executed, h.asked⟩)

/-- The switch faults only in a move that leaves the array. -/
theorem execute_ends (h : Open s cmd false) (hreq : s.req = cmd.code) :
    (∃ t, s.execute = .ok t) ∨ s.Overruns cmd := by
  have hholds := h.holds
  cases cmd with
  | set_zorder id oper =>
    simp only [State.holds] at hholds
    simp only [State.execute, hreq, Command.code, hholds]
    cases hz : s.mixer.rezorder id oper with
    | error e => exact .inr ⟨id, oper, e, rfl, hz⟩
    | ok r => exact .inl ⟨_, rfl⟩
  | set_encoder setting => exact .inl ⟨_, by simp only [State.execute, hreq, Command.code]; rfl⟩
  | get_encoder => exact .inl ⟨_, by simp only [State.execute, hreq, Command.code]; rfl⟩
  | quit => exact .inl ⟨_, by simp only [State.execute, hreq, Command.code]; rfl⟩

theorem executing_replies (hr : s.requester = .waiting cmd) (hw : s.worker = .executing)
    (hreq : s.req = cmd.code) (h : Open s cmd false) : s.Replies cmd 3 ∨ s.Overruns cmd := by
  refine (execute_ends h hreq).imp_left fun ⟨t, ht⟩ => ?_
  obtain ⟨hdone, hrt, hwt⟩ := execute_done h hreq ht
  have hwork : s.work = .ok t := by simp only [State.work, hw, ht]
  exact Replies.before hwork (answering_replies (hrt.trans hr) hwt hdone)

theorem clearing_replies (hr : s.requester = .waiting cmd) (hw : s.worker = .clearing)
    (hreq : s.req = cmd.code) (h : Open s cmd true) : s.Replies cmd 4 ∨ s.Overruns cmd := by
  have hwork : s.work = .ok { s with evt_req := false, worker := .executing } := by
    simp only [State.work, hw]
  exact (executing_replies (s := { s with evt_req := false, worker := .executing }) hr rfl hreq
    ⟨h.holds, rfl, h.res, h.executed, h.asked⟩).imp_left (Replies.before hwork)

theorem checking_replies (hr : s.requester = .waiting cmd) (hw : s.worker = .checking)
    (hreq : s.req = cmd.code) (h : Open s cmd true) : s.Replies cmd 5 ∨ s.Overruns cmd := by
  have hwork : s.work = .ok { s with worker := .clearing } := by
    simp only [State.work, hw, h.req, if_true]
  exact (clearing_replies (s := { s with worker := .clearing }) hr rfl hreq
    (h.move _ _ _)).imp_left (Replies.before hwork)

theorem mixing_replies (hr : s.requester = .waiting cmd) (hw : s.worker = .mixing)
    (hreq : s.req = cmd.code) (h : Open s cmd true) : s.Replies cmd 6 ∨ s.Overruns cmd := by
  have hwork : s.work = .ok { s with worker := .checking } := by simp only [State.work, hw]
  exact (checking_replies (s := { s with worker := .checking }) hr rfl hreq
    (h.move _ _ _)).imp_left (Replies.before hwork)

theorem Phase.replies (h : Phase s) (hwait : s.requester = .waiting cmd) :
    s.Replies cmd 6 ∨ s.Overruns cmd := by
  rcases h.waits hwait with ⟨(hw | hw) | hw, hreq, h⟩ | ⟨hw, hreq, h⟩ | ⟨hw | hw, h⟩ | h
  · exact (checking_replies hwait hw hreq h).imp_left fun h => Replies.mono h (by decide)
  · exact mixing_replies hwait hw hreq h
  · exact (clearing_replies hwait hw hreq h).imp_left fun h => Replies.mono h (by decide)
  · exact (executing_replies hwait hw hreq h).imp_left fun h => Replies.mono h (by decide)
  · exact .inl (Replies.mono (answering_replies hwait hw h) (by decide))
  · exact .inl (Replies.mono (replying_replies hwait hw h) (by decide))
  · exact .inl (Replies.mono (replied_replies hwait h) (by decide))

end

/-! ## The law -/

/-- Every call is executed once, in its turn, and returns its own result. While it waits, its
request is executed, signalled, or in the hands of the mixer thread, whose next statements
answer it. -/
theorem each_request_is_executed_once_and_answered (req res : Int) (zorder : Int × ZOrderOper)
    (setting : EncoderSetting) (mixer : CTX) (s : State)
    (hreached : Reached step (State.start req res zorder setting mixer) s) :
    Paired s ∧ s.Pending ∧
      ∀ cmd, s.requester = .waiting cmd → s.Replies cmd 6 ∨ s.Overruns cmd := by
  have h : Phase s := reached_keeps step_phase (start_phase req res zorder setting mixer) hreached
  exact ⟨h.paired, h.pending, fun _ hwait => h.replies hwait⟩

/-- The mixer thread has taken the signal, and not yet looked at the command. -/
def taken_request : List Action := [.call .get_encoder, .req_step, .req_step, .work, .work]

theorem each_request_is_executed_once_and_answered_example :
    ∃ s, run step (State.start 0 0 (0, .UP) defaultSetting (CTX.new fun _ => 0)) taken_request =
      .ok s ∧ Paired s ∧ s.Pending := by
  have h := each_request_is_executed_once_and_answered 0 0 (0, .UP) defaultSetting
    (CTX.new fun _ => 0) _ ⟨taken_request, rfl⟩
  exact ⟨_, rfl, h.1, h.2.1⟩

/-- The request of a waiting requester is executed, or still signalled. -/
def State.NeverTaken (s : State) : Prop :=
  ∀ cmd, s.requester = .waiting cmd → s.executed.length = s.asked.length ∨ s.evt_req = true

/-- There the request is neither executed nor signalled any more. -/
theorem a_taken_request_is_neither_executed_nor_signalled :
    ¬ ∀ s, Reached step (State.start 0 0 (0, .UP) defaultSetting (CTX.new fun _ => 0)) s →
      s.NeverTaken := by
  intro hall
  rcases hall _ ⟨taken_request, rfl⟩ .get_encoder rfl with h | h
  · cases h
  · cases h

end zonekey_mcu.video_mixer.requests
