-- The user that sends the commands of an ActiveX control. `addTask` runs in any thread, the
-- connection comes and goes in the thread of the XMPP library, and one worker sends the tasks.
-- A task starts with whatever `sent` its memory held.
import ZonekeyMcu.Fault
import ZonekeyMcu.Lib.Runs
import ZonekeyMcu.Lib.Memory
import ZonekeyMcu.Lib.ListMoves

open runs memory

namespace zonekey_mcu.normal_user

/-! ## The threads -/

/-- `opaque_ptr` and `cb` are the address of the caller's data and of its function. -/
structure XmppTask where
  ptr : Nat
  remote_jid : String
  cmd : String
  option : String
  opaque_ptr : Nat
  cb : Nat
  sent : Bool
  deriving DecidableEq, Repr

/-- Where the worker is in `proc_run` and `send_all_pending_tasks`. The number counts the
tasks that the loop has passed. -/
inductive Worker
  /-- Before the first `is_ok()`. -/
  | check
  /-- In `evt_task_added_.wait(100)`. -/
  | waiting
  /-- Before `evt_task_added_.reset()`. -/
  | resetting
  /-- Before the second `is_ok()`. -/
  | recheck
  /-- Before the lock of the list. -/
  | locking
  /-- Before the test of the loop. -/
  | looping (i : Nat)
  /-- Behind the `is_ok()` of the loop. -/
  | sending (i : Nat)
  /-- Behind the loop. -/
  | erasing (i : Nat)
  deriving DecidableEq, Repr

/-- Who holds `cs_tasks_`. A thread in `addTask` has pushed its task, or has signalled too. -/
inductive Lock
  | free
  | pushed
  | signalled
  | worker
  deriving DecidableEq, Repr

/-- `sender` are the tasks that `zk_xmpp_uac_send_cmd` was called with, in order, and `mem` the
tasks that were made and deleted. `left_over` is whether the last turn of the worker, since it
reset the event, left a task in the list. -/
structure User where
  connected : Bool
  signalled : Bool
  tasks : List XmppTask
  lock : Lock
  worker : Worker
  mem : Memory
  sender : List Nat
  left_over : Bool

def User.start : User where
  connected := false
  signalled := false
  tasks := []
  lock := .free
  worker := .check
  mem := Memory.new
  sender := []
  left_over := false

/-- `op_remove_sent` for each task of the list, in order. -/
def remove_sent (mem : Memory) : List XmppTask → Except Fault (List XmppTask × Memory)
  | [] => .ok ([], mem)
  | t :: ts =>
    if t.ptr ∈ mem.deleted then .error .useAfterDelete
    else if t.sent then (mem.delete .doubleDelete t.ptr).bind fun mem => remove_sent mem ts
    else (remove_sent mem ts).map fun r => (t :: r.1, r.2)

/-- The call of the sender with the task at `i`, which then counts as sent. -/
def User.send (u : User) (i : Nat) : Except Fault User :=
  match u.tasks[i]? with
  | none => .error .outOfBounds
  | some task =>
    if task.ptr ∈ u.mem.deleted then .error .useAfterDelete
    else .ok { u with
      tasks := u.tasks.set i { task with sent := true }
      sender := u.sender ++ [task.ptr]
      worker := .looping (i + 1) }

/-- One step of the worker. A worker that waits for the event or for the lock stays. -/
def User.work (u : User) : Except Fault User :=
  match u.worker with
  | .check => .ok { u with worker := if u.connected then .waiting else .check }
  | .waiting => .ok { u with worker := if u.signalled then .resetting else .waiting }
  | .resetting => .ok { u with signalled := false, worker := .recheck }
  | .recheck =>
    if u.connected then .ok { u with worker := .locking }
    else .ok { u with worker := .check, left_over := decide (u.tasks ≠ []) }
  | .locking =>
    if u.lock = .free then .ok { u with lock := .worker, worker := .looping 0 } else .ok u
  | .looping i =>
    if i < u.tasks.length ∧ u.connected = true then .ok { u with worker := .sending i }
    else .ok { u with worker := .erasing i }
  | .sending i => u.send i
  | .erasing _ => (remove_sent u.mem u.tasks).map fun r =>
    { u with
      tasks := r.1
      mem := r.2
      lock := .free
      worker := .check
      left_over := decide (r.1 ≠ []) }

/-- `addTask` up to its `push_back`. A thread waits while another one has the lock. -/
def User.push (u : User) (remote_jid cmd option : String) (opaque_ptr cb : Nat) (sent : Bool) :
    User :=
  if u.lock = .free then
    let (ptr, mem) := u.mem.alloc
    { u with
      mem := mem
      tasks := u.tasks ++
        [{ ptr := ptr, remote_jid := remote_jid, cmd := cmd, option := option
           opaque_ptr := opaque_ptr, cb := cb, sent := sent }]
      lock := .pushed }
  else u

/-- A step of some thread. `sent` is what the memory of the new task held. -/
inductive Action
  | connect
  | disconnect
  | addTask (remote_jid cmd option : String) (opaque_ptr cb : Nat) (sent : Bool)
  | addTask_signal
  | addTask_unlock
  | work
  | timeout
  deriving DecidableEq, Repr

def step (u : User) : Action → Except Fault User
  | .connect => .ok { u with connected := true }
  | .disconnect => .ok { u with connected := false }
  | .addTask remote_jid cmd option opaque_ptr cb sent =>
    .ok (u.push remote_jid cmd option opaque_ptr cb sent)
  | .addTask_signal =>
    .ok (if u.lock = .pushed then { u with signalled := true, lock := .signalled } else u)
  | .addTask_unlock => .ok (if u.lock = .signalled then { u with lock := .free } else u)
  | .work => u.work
  | .timeout =>
    .ok (if u.worker = .waiting ∧ u.signalled = false then { u with worker := .check } else u)

/-! ## The list and its memory -/

/-- How many tasks the loop has passed. -/
def Worker.walked : Worker → Nat
  | .looping i => i
  | .sending i => i
  | .erasing i => i
  | _ => 0

/-- The worker is in the part of `send_all_pending_tasks` that holds the lock. -/
def Worker.inside : Worker → Prop
  | .looping _ => True
  | .sending _ => True
  | .erasing _ => True
  | _ => False

/-- The list has live tasks, each once, and only the holder of the lock is at work on it. -/
structure Sound (u : User) : Prop where
  nodup : (u.tasks.map XmppTask.ptr).Nodup
  alive : ∀ t ∈ u.tasks, t.ptr ∉ u.mem.deleted
  given : ∀ t ∈ u.tasks, t.ptr < u.mem.next
  deleted : ∀ p ∈ u.mem.deleted, p < u.mem.next
  walked : u.worker.walked ≤ u.tasks.length
  sending : ∀ i, u.worker = .sending i → i < u.tasks.length
  inside : u.worker.inside → u.lock = .worker

theorem sound_start : Sound User.start := by
  refine ⟨List.nodup_nil, ?_, ?_, ?_, Nat.le_refl _, ?_, ?_⟩ <;>
    simp [User.start, Memory.new, Worker.inside]

/-- The list and the memory after the erase: every task whose flag is true is deleted. -/
theorem remove_sent_eq {mem : Memory} {ts : List XmppTask}
    (hnodup : (ts.map XmppTask.ptr).Nodup) (halive : ∀ t ∈ ts, t.ptr ∉ mem.deleted) :
    ∃ mem', remove_sent mem ts = .ok (ts.filter (!·.sent), mem') ∧ mem'.next = mem.next ∧
      ∀ p, p ∈ mem'.deleted ↔ (∃ t ∈ ts, t.sent = true ∧ t.ptr = p) ∨ p ∈ mem.deleted := by
  induction ts generalizing mem with
  | nil => exact ⟨mem, rfl, rfl, by simp⟩
  | cons t ts ih =>
    rw [List.map_cons, List.nodup_cons] at hnodup
    have ht : t.ptr ∉ mem.deleted := halive t List.mem_cons_self
    have hts : ∀ s ∈ ts, s.ptr ∉ mem.deleted := fun s hs => halive s (List.mem_cons_of_mem _ hs)
    cases hsent : t.sent with
    | false =>
      obtain ⟨mem', hok, hnext, hdel⟩ := ih hnodup.2 hts
      refine ⟨mem', ?_, hnext, fun p => ?_⟩
      · simp [remove_sent, ht, hsent, hok, Except.map]
      · rw [hdel p]
        simp [hsent]
    | true =>
      have hne : ∀ s ∈ ts, s.ptr ∉ t.ptr :: mem.deleted := by
        intro s hs hm
        rcases List.mem_cons.mp hm with heq | hm
        · exact hnodup.1 (heq ▸ List.mem_map_of_mem hs)
        · exact hts s hs hm
      obtain ⟨mem', hok, hnext, hdel⟩ :=
        @ih { mem with deleted := t.ptr :: mem.deleted } hnodup.2 hne
      refine ⟨mem', ?_, hnext, fun p => ?_⟩
      · simp [remove_sent, ht, hsent, Memory.delete, Except.bind, hok]
      · rw [hdel p]
        simp only [List.mem_cons, exists_eq_or_imp, hsent, true_and, eq_comm (a := p)]
        exact or_left_comm.trans or_assoc.symm

/-- The task that the loop is at, between those that it has passed and the rest. -/
theorem split_at {ts : List XmppTask} {i : Nat} (h : i < ts.length) :
    ∃ before t after, ts = before ++ t :: after ∧ before.length = i ∧ ts[i]? = some t := by
  refine ⟨ts.take i, ts[i], ts.drop (i + 1), ?_, List.length_take_of_le (Nat.le_of_lt h),
    List.getElem?_eq_getElem h⟩
  rw [← List.drop_eq_getElem_cons h, List.take_append_drop]

section

variable {u : User}

/-- A task that was passed to the sender now, with the rest of the list as it was. -/
theorem send_eq {before after : List XmppTask} {t : XmppTask} (ht : t.ptr ∉ u.mem.deleted)
    (htasks : u.tasks = before ++ t :: after) :
    u.send before.length = .ok { u with
      tasks := before ++ { t with sent := true } :: after
      sender := u.sender ++ [t.ptr]
      worker := .looping (before.length + 1) } := by
  simp [User.send, htasks, ht]

/-- A step of the worker that only moves it. -/
theorem Sound.moved (h : Sound u) (worker : Worker) (hwalked : worker.walked ≤ u.tasks.length)
    (hsending : ∀ i, worker = .sending i → i < u.tasks.length)
    (hinside : worker.inside → u.lock = .worker) (signalled left_over : Bool) :
    Sound { u with worker := worker, signalled := signalled, left_over := left_over } :=
  ⟨h.nodup, h.alive, h.given, h.deleted, hwalked, hsending, hinside⟩

/-- A step of the worker outside the locked part. -/
theorem Sound.outside (h : Sound u) {worker : Worker} (hwalked : worker.walked = 0)
    (hinside : ¬ worker.inside) (signalled left_over : Bool) :
    Sound { u with worker := worker, signalled := signalled, left_over := left_over } := by
  refine h.moved worker (by omega) (fun i hi => ?_) (fun hi => absurd hi hinside) signalled
    left_over
  subst hi
  exact absurd trivial hinside

theorem push_sound (h : Sound u) (remote_jid cmd option : String) (opaque_ptr cb : Nat)
    (sent : Bool) : Sound (u.push remote_jid cmd option opaque_ptr cb sent) := by
  unfold User.push
  split
  · rename_i hfree
    have hout : ¬ u.worker.inside := fun hin => by
      rw [h.inside hin] at hfree
      cases hfree
    have hnew : u.mem.next ∉ u.mem.deleted := fun hd => Nat.lt_irrefl _ (h.deleted _ hd)
    refine ⟨?_, ?_, ?_, ?_, ?_, ?_, fun hin => absurd hin hout⟩
    · simp only [List.map_append]
      refine list_moves.nodup_append_one h.nodup fun hm => ?_
      obtain ⟨t, ht, heq⟩ := List.mem_map.mp hm
      exact Nat.lt_irrefl _ (heq ▸ h.given t ht)
    · intro t ht
      rcases List.mem_append.mp ht with ht | ht
      · exact h.alive t ht
      · rw [List.mem_singleton.mp ht]
        exact hnew
    · intro t ht
      rcases List.mem_append.mp ht with ht | ht
      · exact Nat.lt_succ_of_lt (h.given t ht)
      · rw [List.mem_singleton.mp ht]
        exact Nat.lt_succ_self _
    · exact fun p hp => Nat.lt_succ_of_lt (h.deleted p hp)
    · rw [List.length_append]
      exact Nat.le_add_right_of_le h.walked
    · exact fun i hi => absurd (by rw [hi]; trivial) hout
  · exact h

/-- The step of the worker that passes one task to the sender. -/
theorem send_sound (h : Sound u) {i : Nat} (hi : u.worker = .sending i) :
    ∃ u', u.send i = .ok u' ∧ Sound u' := by
  obtain ⟨before, t, after, htasks, hlen, -⟩ := split_at (h.sending i hi)
  have ht : t ∈ u.tasks := htasks ▸ List.mem_append_right before List.mem_cons_self
  have hin : u.lock = .worker := h.inside (by rw [hi]; trivial)
  have hptr : (before ++ { t with sent := true } :: after).map XmppTask.ptr =
      u.tasks.map XmppTask.ptr := by
    rw [htasks, List.map_append, List.map_append]
    rfl
  -- The list has the same tasks, but for the flag of one of them.
  have hmem : ∀ s ∈ before ++ { t with sent := true } :: after, ∃ s' ∈ u.tasks, s'.ptr = s.ptr := by
    intro s hs
    have hs' : s.ptr ∈ u.tasks.map XmppTask.ptr := hptr ▸ List.mem_map_of_mem hs
    obtain ⟨s', hs', heq⟩ := List.mem_map.mp hs'
    exact ⟨s', hs', heq⟩
  subst hlen
  refine ⟨_, send_eq (h.alive t ht) htasks, ?_, ?_, ?_, h.deleted, ?_, ?_, fun _ => hin⟩
  · exact hptr ▸ h.nodup
  · intro s hs
    obtain ⟨s', hs', heq⟩ := hmem s hs
    exact heq ▸ h.alive s' hs'
  · intro s hs
    obtain ⟨s', hs', heq⟩ := hmem s hs
    exact heq ▸ h.given s' hs'
  · simp [Worker.walked]
  · rintro j ⟨⟩

/-- The step of the worker that deletes the tasks whose flag is true. -/
theorem erase_sound (h : Sound u) :
    ∃ mem', remove_sent u.mem u.tasks = .ok (u.tasks.filter (!·.sent), mem') ∧
      mem'.next = u.mem.next ∧
      (∀ p, p ∈ mem'.deleted ↔ (∃ t ∈ u.tasks, t.sent = true ∧ t.ptr = p) ∨ p ∈ u.mem.deleted) ∧
      ∀ left_over, Sound { u with
        tasks := u.tasks.filter (!·.sent), mem := mem', lock := .free, worker := .check,
        left_over := left_over } := by
  obtain ⟨mem', hok, hnext, hdel⟩ := remove_sent_eq h.nodup h.alive
  have hmem : ∀ t ∈ u.tasks.filter (!·.sent), t ∈ u.tasks := fun t ht => List.mem_of_mem_filter ht
  refine ⟨mem', hok, hnext, hdel, fun left_over => ⟨?_, ?_, ?_, ?_, Nat.zero_le _, ?_, ?_⟩⟩
  · exact h.nodup.sublist (List.filter_sublist.map XmppTask.ptr)
  · intro t ht hd
    obtain ⟨ht', hunsent⟩ := List.mem_filter.mp ht
    rcases (hdel t.ptr).mp hd with ⟨s, hs, hsent, heq⟩ | hd
    · have hst : s = t := List.inj_on_of_nodup_map h.nodup hs ht' heq
      rw [hst] at hsent
      simp [hsent] at hunsent
    · exact h.alive t ht' hd
  · intro t ht
    change t.ptr < mem'.next
    rw [hnext]
    exact h.given t (hmem t ht)
  · intro p hp
    change p < mem'.next
    rw [hnext]
    rcases (hdel p).mp hp with ⟨t, ht, -, rfl⟩ | hd
    · exact h.given t ht
    · exact h.deleted p hd
  · rintro i ⟨⟩
  · exact False.elim

theorem work_sound (h : Sound u) : ∃ u', u.work = .ok u' ∧ Sound u' := by
  unfold User.work
  cases hw : u.worker with
  | check => exact ⟨_, rfl, h.outside (by split <;> rfl) (by split <;> exact id) _ _⟩
  | waiting => exact ⟨_, rfl, h.outside (by split <;> rfl) (by split <;> exact id) _ _⟩
  | resetting => exact ⟨_, rfl, h.outside rfl id _ _⟩
  | recheck =>
    dsimp only
    split
    · exact ⟨_, rfl, h.outside rfl id _ _⟩
    · exact ⟨_, rfl, h.outside rfl id _ _⟩
  | locking =>
    dsimp only
    split
    · exact ⟨_, rfl, h.nodup, h.alive, h.given, h.deleted, Nat.zero_le _, by rintro i ⟨⟩,
        fun _ => rfl⟩
    · exact ⟨u, rfl, h⟩
  | looping i =>
    have hlock : u.lock = .worker := h.inside (by rw [hw]; trivial)
    have hle := h.walked
    rw [hw] at hle
    dsimp only
    split
    · rename_i hi
      refine ⟨_, rfl, h.moved (.sending i) hle (fun j hj => ?_) (fun _ => hlock) _ _⟩
      cases hj
      exact hi.1
    · exact ⟨_, rfl, h.moved (.erasing i) hle (by rintro j ⟨⟩) (fun _ => hlock) _ _⟩
  | sending i => exact send_sound h hw
  | erasing i =>
    obtain ⟨mem', hok, -, -, hsound⟩ := erase_sound h
    exact ⟨_, by rw [hok]; rfl, hsound _⟩

theorem step_sound (u : User) (a : Action) (h : Sound u) : ∃ u', step u a = .ok u' ∧ Sound u' := by
  cases a with
  | connect => exact ⟨_, rfl, h.nodup, h.alive, h.given, h.deleted, h.walked, h.sending, h.inside⟩
  | disconnect =>
    exact ⟨_, rfl, h.nodup, h.alive, h.given, h.deleted, h.walked, h.sending, h.inside⟩
  | addTask remote_jid cmd option opaque_ptr cb sent => exact ⟨_, rfl, push_sound h _ _ _ _ _ _⟩
  | addTask_signal =>
    refine ⟨_, rfl, ?_⟩
    split
    · rename_i hpushed
      refine ⟨h.nodup, h.alive, h.given, h.deleted, h.walked, h.sending, fun hin => ?_⟩
      rw [h.inside hin] at hpushed
      cases hpushed
    · exact h
  | addTask_unlock =>
    refine ⟨_, rfl, ?_⟩
    split
    · rename_i hsignalled
      refine ⟨h.nodup, h.alive, h.given, h.deleted, h.walked, h.sending, fun hin => ?_⟩
      rw [h.inside hin] at hsignalled
      cases hsignalled
    · exact h
  | work => exact work_sound h
  | timeout =>
    refine ⟨_, rfl, ?_⟩
    split
    · exact h.outside rfl id _ _
    · exact h

end

end zonekey_mcu.normal_user
