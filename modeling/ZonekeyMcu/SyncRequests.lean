-- The calls of a control that wait for the MCU: `create_sink` and `destroy_sink`. The caller
-- owns a parameter block, and its task holds the address. When the wait ends without an
-- answer the caller deletes the block, and nothing takes the address back.
import ZonekeyMcu.Fault
import ZonekeyMcu.Options
import ZonekeyMcu.Lib.Runs
import ZonekeyMcu.Lib.Memory

open runs memory zonekey_mcu.options

namespace zonekey_mcu.mcu_mod

/-! ## The parameter block -/

/-- `evt_compl_` goes back by itself when a wait ends with it. -/
structure SyncParam where
  evt_compl : Bool
  result : String
  result_options : String
  deriving DecidableEq, Repr

def SyncParam.new : SyncParam := { evt_compl := false, result := "", result_options := "" }

def SyncParam.save_res (sp : SyncParam) (result result_options : Option String) : SyncParam :=
  { sp with result := result.getD "", result_options := result_options.getD "" }

/-! ## The answer of `create_sink` -/

/-- What the caller gets. `ip` stays as it was when the answer does not say it. -/
structure Sink where
  sinkid : Int
  ip : Option String
  rtp : Int
  rtcp : Int
  deriving DecidableEq, Repr

def Sink.none : Sink := { sinkid := -1, ip := .none, rtp := 0, rtcp := 0 }

/-- One piece of the options, by the first name that it starts with. -/
def Sink.read (s : Sink) (p : List Char) : Sink :=
  if "sinkid=".toList.isPrefixOf p then { s with sinkid := atoi (String.ofList (p.drop 7)) }
  else if "server_ip=".toList.isPrefixOf p then { s with ip := some (String.ofList (p.drop 10)) }
  else if "server_rtp_port=".toList.isPrefixOf p then
    { s with rtp := atoi (String.ofList (p.drop 16)) }
  else if "server_rtcp_port=".toList.isPrefixOf p then
    { s with rtcp := atoi (String.ofList (p.drop 17)) }
  else s

/-- What `create_sink` makes of the block once its wait ended with the event. -/
def SyncParam.sink (sp : SyncParam) : Sink :=
  if sp.result = "ok" then (option_pieces sp.result_options).foldl Sink.read Sink.none
  else Sink.none

/-! ## The threads -/

/-- Where `cb_res` is for one task. The library calls it once, after the task was sent. -/
inductive Response
  | none
  | saved (result option : Option String)
  | signalled (result option : Option String)
  deriving DecidableEq, Repr

inductive Kind
  | create
  | destroy
  deriving DecidableEq, Repr

/-- One call. `param` is the block at `sp`, `options` the text of the task, and `returned` what
the caller came back with. -/
structure Request where
  kind : Kind
  options : String
  sp : Nat
  param : SyncParam
  sent : Bool
  response : Response
  returned : Option Sink
  deriving DecidableEq, Repr

structure State where
  requests : List Request
  mem : Memory

def State.start : State := { requests := [], mem := Memory.new }

def create_options (cid sid payload : Int) : String :=
  "cid=" ++ text_i cid ++ "&sid=" ++ text_i sid ++ "&payload=" ++ text_i payload

def destroy_options (cid sink_id : Int) : String :=
  "cid=" ++ text_i cid ++ "&sinkid=" ++ text_i sink_id

/-- A new block and its task. -/
def State.call (s : State) (kind : Kind) (options : String) : State :=
  let (sp, mem) := s.mem.alloc
  { requests := s.requests ++
      [{ kind := kind, options := options, sp := sp, param := .new, sent := false
         response := .none, returned := none }]
    mem := mem }

/-- A call on the block of a request: an error when it was deleted. -/
def State.use (s : State) (i : Nat) (r r' : Request) : Except Fault State :=
  if r.sp ∈ s.mem.deleted then .error .useAfterDelete
  else .ok { s with requests := s.requests.set i r' }

/-- The caller of a request comes back with `sink`, and deletes the block. -/
def State.finish (s : State) (i : Nat) (r : Request) (param : SyncParam) (sink : Sink) :
    Except Fault State :=
  if r.sp ∈ s.mem.deleted then .error .useAfterDelete
  else (s.mem.delete .doubleDelete r.sp).map fun mem =>
    { requests := s.requests.set i { r with param := param, returned := some sink }, mem := mem }

/-- The worker of the user passes the task to the library. -/
def State.task_sent (s : State) (i : Nat) : Except Fault State :=
  match s.requests[i]? with
  | some r => .ok { s with requests := s.requests.set i { r with sent := true } }
  | none => .ok s

/-- `cb_res` up to its `save_res`. -/
def State.save_res (s : State) (i : Nat) (result option : Option String) : Except Fault State :=
  match s.requests[i]? with
  | some r =>
    if r.sent = true ∧ r.response = .none then
      s.use i r { r with param := r.param.save_res result option
                         response := .saved result option }
    else .ok s
  | none => .ok s

/-- The `signal` of `cb_res`. -/
def State.signal (s : State) (i : Nat) : Except Fault State :=
  match s.requests[i]? with
  | some r => match r.response with
    | .saved result option =>
      s.use i r { r with param := { r.param with evt_compl := true }
                         response := .signalled result option }
    | _ => .ok s
  | none => .ok s

/-- The wait of the caller ends with the event. -/
def State.complete (s : State) (i : Nat) : Except Fault State :=
  match s.requests[i]? with
  | some r =>
    if r.returned = none ∧ r.param.evt_compl = true then
      s.finish i r { r.param with evt_compl := false } r.param.sink
    else .ok s
  | none => .ok s

/-- The wait of the caller ends after 30 seconds. -/
def State.timeout (s : State) (i : Nat) : Except Fault State :=
  match s.requests[i]? with
  | some r =>
    if r.returned = none ∧ r.param.evt_compl = false then s.finish i r r.param Sink.none
    else .ok s
  | none => .ok s

inductive Action
  | create_sink (cid sid payload : Int)
  | destroy_sink (cid sink_id : Int)
  | task_sent (i : Nat)
  | save_res (i : Nat) (result option : Option String)
  | signal (i : Nat)
  | complete (i : Nat)
  | timeout (i : Nat)
  deriving DecidableEq, Repr

/-- A step that no request is at changes nothing. -/
def step (s : State) : Action → Except Fault State
  | .create_sink cid sid payload => .ok (s.call .create (create_options cid sid payload))
  | .destroy_sink cid sink_id => .ok (s.call .destroy (destroy_options cid sink_id))
  | .task_sent i => s.task_sent i
  | .save_res i result option => s.save_res i result option
  | .signal i => s.signal i
  | .complete i => s.complete i
  | .timeout i => s.timeout i

/-! ## The property -/

/-- The caller of `create_sink` whose wait `cb_res` ended has what the answer says. -/
def State.Answered (s : State) : Prop :=
  ∀ r ∈ s.requests, r.kind = .create → ∀ result option sink,
    r.response = .signalled result option → r.returned = some sink →
    sink = (SyncParam.new.save_res result option).sink

/-- `cb_res` runs, in both its steps, while the caller still waits. -/
def State.in_time (s : State) : Action → Prop
  | .save_res i _ _ => ∀ r, s.requests[i]? = some r → r.sent = true → r.response = .none →
    r.returned = none
  | .signal i => ∀ r, s.requests[i]? = some r → ∀ result option,
    r.response = .saved result option → r.returned = none
  | _ => True

/-! ## The invariant -/

/-- What holds of the request `i`. The block lives exactly as long as the caller waits. -/
structure Fits (deleted : List Nat) (i : Nat) (r : Request) : Prop where
  sp : r.sp = i
  alive : i ∈ deleted ↔ r.returned ≠ none
  idle : r.response = .none → r.param.evt_compl = false
  saved : ∀ result option, r.response = .saved result option →
    r.param.evt_compl = false ∧ (r.returned = none →
      r.param = SyncParam.new.save_res result option)
  signalled : ∀ result option, r.response = .signalled result option → r.returned = none →
    r.param = { SyncParam.new.save_res result option with evt_compl := true }
  got : ∀ result option sink, r.response = .signalled result option → r.returned = some sink →
    sink = (SyncParam.new.save_res result option).sink

structure Sound (s : State) : Prop where
  next : s.mem.next = s.requests.length
  below : ∀ p ∈ s.mem.deleted, p < s.mem.next
  each : ∀ i r, s.requests[i]? = some r → Fits s.mem.deleted i r

theorem sound_start : Sound State.start :=
  ⟨rfl, by simp [State.start, Memory.new], by simp [State.start]⟩

section

variable {s : State} {i : Nat} {r r' : Request}

theorem Sound.answered (h : Sound s) : s.Answered := by
  intro r hr _ result option sink hres hret
  obtain ⟨i, hi, rfl⟩ := List.mem_iff_getElem.mp hr
  exact (h.each i _ (List.getElem?_eq_getElem hi)).got result option sink hres hret

/-- A change of one request, with what it does to the memory of its own block. -/
theorem Sound.set (h : Sound s) (hr : s.requests[i]? = some r) {mem' : Memory}
    (hnext : mem'.next = s.mem.next) (hmem : ∀ p, p ∈ mem'.deleted → p = i ∨ p ∈ s.mem.deleted)
    (hkeep : ∀ p ∈ s.mem.deleted, p ∈ mem'.deleted) (hfits : Fits mem'.deleted i r') :
    Sound { requests := s.requests.set i r', mem := mem' } := by
  have hi : i < s.requests.length := (List.getElem?_eq_some_iff.mp hr).1
  refine ⟨?_, fun p hp => ?_, fun j q hq => ?_⟩
  · rw [List.length_set, hnext]
    exact h.next
  · rw [hnext]
    rcases hmem p hp with rfl | hp
    · rw [h.next]
      exact hi
    · exact h.below p hp
  · by_cases hij : i = j
    · subst hij
      rw [List.getElem?_set_self hi] at hq
      cases hq
      exact hfits
    · rw [List.getElem?_set_ne hij] at hq
      have hj := h.each j q hq
      refine ⟨hj.sp, ?_, hj.idle, hj.saved, hj.signalled, hj.got⟩
      rw [← hj.alive]
      refine ⟨fun hd => ?_, hkeep j⟩
      rcases hmem j hd with rfl | hd
      · exact absurd rfl hij
      · exact hd

/-- A use of the block goes well exactly while the caller waits. -/
theorem Sound.use (h : Sound s) (hr : s.requests[i]? = some r) (hret : r.returned = none)
    (hfits : Fits s.mem.deleted i r') : ∃ s', s.use i r r' = .ok s' ∧ Sound s' := by
  have hi := h.each i r hr
  have hlive : r.sp ∉ s.mem.deleted := by
    rw [hi.sp, hi.alive]
    simp [hret]
  exact ⟨_, if_neg hlive, h.set hr rfl (fun _ => .inr) (fun _ => id) hfits⟩

theorem use_live {s' : State} (h : Sound s) (hr : s.requests[i]? = some r)
    (huse : s.use i r r' = .ok s') : r.returned = none := by
  by_contra hret
  have hi := h.each i r hr
  have hdel : r.sp ∈ s.mem.deleted := by rwa [hi.sp, hi.alive]
  unfold State.use at huse
  rw [if_pos hdel] at huse
  cases huse

/-- The caller comes back and takes its block along. -/
theorem Sound.finish (h : Sound s) (hr : s.requests[i]? = some r) (hret : r.returned = none)
    {param : SyncParam} {sink : Sink} (hevt : param.evt_compl = false)
    (hgot : ∀ result option, r.response = .signalled result option →
      sink = (SyncParam.new.save_res result option).sink) :
    ∃ s', s.finish i r param sink = .ok s' ∧ Sound s' := by
  have hi := h.each i r hr
  have hlive : r.sp ∉ s.mem.deleted := by
    rw [hi.sp, hi.alive]
    simp [hret]
  have hok : s.finish i r param sink = .ok
      { requests := s.requests.set i { r with param := param, returned := some sink }
        mem := { s.mem with deleted := r.sp :: s.mem.deleted } } := by
    unfold State.finish Memory.delete
    rw [if_neg hlive, if_neg hlive]
    rfl
  refine ⟨_, hok, h.set hr rfl ?_ (fun _ => List.mem_cons_of_mem _) ⟨hi.sp, ?_, ?_, ?_, ?_, ?_⟩⟩
  · intro p hp
    rw [← hi.sp]
    exact List.mem_cons.mp hp
  · simp [hi.sp]
  · exact fun _ => hevt
  · exact fun result option _ => ⟨hevt, fun hnone => by cases hnone⟩
  · exact fun result option _ hnone => by cases hnone
  · intro result option sink' hres hsink
    cases hsink
    exact hgot result option hres

theorem call_sound (h : Sound s) (kind : Kind) (options : String) :
    Sound (s.call kind options) := by
  refine ⟨?_, fun p hp => Nat.lt_succ_of_lt (h.below p hp), fun j q hq => ?_⟩
  · change s.mem.next + 1 = (s.requests ++ _).length
    rw [List.length_append, h.next]
    rfl
  · change (s.requests ++ _)[j]? = some q at hq
    by_cases hj : j < s.requests.length
    · rw [List.getElem?_append_left hj] at hq
      exact h.each j q hq
    · rw [List.getElem?_append_right (Nat.le_of_not_lt hj)] at hq
      obtain ⟨hlt, heq⟩ := List.getElem?_eq_some_iff.mp hq
      rw [List.length_singleton] at hlt
      have hjn : j = s.mem.next := by
        rw [h.next]
        omega
      rw [List.getElem_singleton] at heq
      subst heq
      subst hjn
      have hlive : s.mem.next ∉ s.mem.deleted := fun hd => Nat.lt_irrefl _ (h.below _ hd)
      refine ⟨rfl, iff_of_false hlive (fun hn => hn rfl), fun _ => rfl, ?_, ?_, ?_⟩
      · rintro result option ⟨⟩
      · rintro result option ⟨⟩
      · rintro result option sink ⟨⟩

/-! ## Each step -/

theorem save_res_sound (h : Sound s) (result option : Option String)
    (hc : s.in_time (.save_res i result option)) :
    ∃ s', s.save_res i result option = .ok s' ∧ Sound s' := by
  unfold State.save_res
  cases hr : s.requests[i]? with
  | none => exact ⟨s, rfl, h⟩
  | some r =>
    dsimp only
    split
    · rename_i hready
      have hi := h.each i r hr
      have hret := hc r hr hready.1 hready.2
      refine h.use hr hret ⟨hi.sp, hi.alive, by rintro ⟨⟩, ?_, by rintro _ _ ⟨⟩, by rintro _ _ _ ⟨⟩⟩
      rintro _ _ ⟨⟩
      have hevt := hi.idle hready.2
      exact ⟨hevt, fun _ => by simp [SyncParam.save_res, SyncParam.new, hevt]⟩
    · exact ⟨s, rfl, h⟩

theorem signal_sound (h : Sound s) (hc : s.in_time (.signal i)) :
    ∃ s', s.signal i = .ok s' ∧ Sound s' := by
  unfold State.signal
  cases hr : s.requests[i]? with
  | none => exact ⟨s, rfl, h⟩
  | some r =>
    dsimp only
    cases hres : r.response with
    | saved result option =>
      have hi := h.each i r hr
      have hret := hc r hr result option hres
      have hparam := (hi.saved result option hres).2 hret
      refine h.use hr hret ⟨hi.sp, hi.alive, by rintro ⟨⟩, by rintro _ _ ⟨⟩, ?_, ?_⟩
      · rintro _ _ ⟨⟩ -
        rw [hparam]
      · rintro _ _ _ ⟨⟩ hsink
        rw [hret] at hsink
        cases hsink
    | _ => exact ⟨s, rfl, h⟩

theorem complete_sound (h : Sound s) : ∃ s', s.complete i = .ok s' ∧ Sound s' := by
  unfold State.complete
  cases hr : s.requests[i]? with
  | none => exact ⟨s, rfl, h⟩
  | some r =>
    dsimp only
    split
    · rename_i hready
      refine h.finish hr hready.1 rfl fun result option hres => ?_
      rw [(h.each i r hr).signalled result option hres hready.1]
      rfl
    · exact ⟨s, rfl, h⟩

theorem timeout_sound (h : Sound s) : ∃ s', s.timeout i = .ok s' ∧ Sound s' := by
  unfold State.timeout
  cases hr : s.requests[i]? with
  | none => exact ⟨s, rfl, h⟩
  | some r =>
    dsimp only
    split
    · rename_i hready
      refine h.finish hr hready.1 hready.2 fun result option hres => ?_
      -- An answer that was signalled would have ended the wait.
      have hevt := (h.each i r hr).signalled result option hres hready.1
      rw [hevt] at hready
      cases hready.2
    · exact ⟨s, rfl, h⟩

theorem task_sent_sound (h : Sound s) : ∃ s', s.task_sent i = .ok s' ∧ Sound s' := by
  unfold State.task_sent
  cases hr : s.requests[i]? with
  | none => exact ⟨s, rfl, h⟩
  | some r =>
    have hi := h.each i r hr
    exact ⟨_, rfl, h.set hr rfl (fun _ => .inr) (fun _ => id)
      ⟨hi.sp, hi.alive, hi.idle, hi.saved, hi.signalled, hi.got⟩⟩

theorem in_time_sound (s : State) (a : Action) (h : Sound s) (hc : s.in_time a) :
    ∃ s', step s a = .ok s' ∧ Sound s' := by
  cases a with
  | create_sink cid sid payload => exact ⟨_, rfl, call_sound h _ _⟩
  | destroy_sink cid sink_id => exact ⟨_, rfl, call_sound h _ _⟩
  | task_sent i => exact task_sent_sound h
  | save_res i result option => exact save_res_sound h result option hc
  | signal i => exact signal_sound h hc
  | complete i => exact complete_sound h
  | timeout i => exact timeout_sound h

/-- A step of `cb_res` that comes later uses the block that the caller has deleted. -/
theorem answered_in_time (s : State) (a : Action) (s' : State) (h : Sound s)
    (hstep : step s a = .ok s') : s.in_time a := by
  cases a with
  | save_res i result option =>
    intro r hr hsent hres
    simp only [step, State.save_res, hr] at hstep
    rw [if_pos ⟨hsent, hres⟩] at hstep
    exact use_live h hr hstep
  | signal i =>
    intro r hr result option hres
    simp only [step, State.signal, hr, hres] at hstep
    exact use_live h hr hstep
  | _ => trivial

end

/-! ## The law -/

/-- `cb_res` never uses a deleted block, and an answer in time is what the caller of
`create_sink` gets, exactly in the runs in which `cb_res` runs while its caller still waits. -/
theorem a_block_outlives_its_answer_while_the_caller_waits (acts : List Action) :
    Along step State.Answered State.start acts ↔ Meets step State.in_time State.start acts :=
  along_iff_meets (fun _ h => h.answered) in_time_sound
    (fun s a s' h hstep _ => answered_in_time s a s' h hstep) acts sound_start

/-- The task is sent late, and the answer comes after the 30 seconds. -/
def late_answer : List Action :=
  [.create_sink 1 3 100, .task_sent 0, .timeout 0, .save_res 0 (some "ok") (some "sinkid=2")]

/-- `cb_res` writes to the block that the caller has deleted. -/
theorem a_late_answer_uses_the_deleted_block :
    (run step State.start late_answer).map (fun _ => ()) = .error .useAfterDelete ∧
      ¬ ∀ acts, Along step State.Answered State.start acts := by
  have hfault : (run step State.start late_answer).map (fun _ => ()) =
      .error .useAfterDelete := by decide +kernel
  refine ⟨hfault, fun hall => ?_⟩
  obtain ⟨s, hs⟩ := along_ends (hall late_answer)
  rw [hs] at hfault
  cases hfault

end zonekey_mcu.mcu_mod
