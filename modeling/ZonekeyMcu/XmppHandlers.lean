-- The handler lists of an XMPP user agent. A removal frees its node and never moves the
-- tail, so the tail goes away with the last node. A look-up in the message list that finds
-- nothing releases the mutex of another object.
import ZonekeyMcu.Fault
import ZonekeyMcu.Lib.Runs
import ZonekeyMcu.Lib.TailList

open runs tail_list

namespace zonekey_mcu.xmpp_ua

/-! ## The mutexes -/

/-- A mutex of the system: the thread that holds it, and how many times it entered. -/
structure Mutex where
  owner : Option (Nat × Nat)
  deriving DecidableEq, Repr

def CreateMutex : Mutex := { owner := none }

/-- The thread that holds the mutex enters it again. Another one waits. The calls come one
after another, so then nobody leaves the mutex any more. -/
def WaitForSingleObject (m : Mutex) (thread : Nat) : Except Fault Mutex :=
  match m.owner with
  | none => .ok { owner := some (thread, 1) }
  | some (t, depth) =>
    if t = thread then .ok { owner := some (t, depth + 1) } else .error .neverReturns

/-- A thread that does not hold the mutex changes nothing. -/
def ReleaseMutex (m : Mutex) (thread : Nat) : Mutex :=
  match m.owner with
  | none => m
  | some (t, depth) =>
    if t = thread then { owner := if depth ≤ 1 then none else some (t, depth - 1) } else m

/-! ## The user agent -/

/-- The four lists. -/
inductive Kind
  | conn
  | msg
  | presence
  | iq
  deriving DecidableEq, Repr

/-- `xmpp_ua_cb_data`: the address of the handler, and what it is called with. -/
structure cb_data where
  cb : Nat
  userdata : Nat
  deriving DecidableEq, Repr

/-- The test of the loops. -/
def cb_data.has (cb : Nat) (d : cb_data) : Bool := decide (d.cb = cb)

def NULL : Nat := 0

/-- The address of `_zkmse_receive_rsp`. -/
def zkmse_receive_rsp : Nat := 1

/-- `lists k` is the pair of `head` and `tail` of the list `k`, with its nodes. -/
structure xmpp_ua_t where
  mutex_4_ua : Mutex
  lists : Kind → TailList cb_data

/-- A user agent, and the mutex of the map of connections. -/
structure Agent where
  ua : xmpp_ua_t
  mutex_4_conn : Mutex

def xmpp_ua_t.set_list (ua : xmpp_ua_t) (k : Kind) (l : TailList cb_data) : xmpp_ua_t :=
  { ua with lists := Function.update ua.lists k l }

def Agent.enter (a : Agent) (thread : Nat) : Except Fault Agent :=
  (WaitForSingleObject a.ua.mutex_4_ua thread).map fun m =>
    { a with ua := { a.ua with mutex_4_ua := m } }

def Agent.leave (a : Agent) (thread : Nat) : Agent :=
  { a with ua := { a.ua with mutex_4_ua := ReleaseMutex a.ua.mutex_4_ua thread } }

/-! ## The calls -/

def handler_add (k : Kind) (a : Agent) (thread : Nat) (h : cb_data) : Except Fault Agent := do
  let a ← a.enter thread
  let l ← (a.ua.lists k).append .useAfterDelete h
  .ok ({ a with ua := a.ua.set_list k l }.leave thread)

def xmpp_ua_conn_handler_add := handler_add .conn

def xmpp_ua_msg_handler_add := handler_add .msg

def xmpp_ua_iq_handler_add := handler_add .iq

def xmpp_ua_presence_handler_add := handler_add .presence

/-- The loop of the removals and the look-ups: the first node with the handler `cb`. -/
def find_cb (l : TailList cb_data) (cb : Nat) : Except Fault (Place × Option Nat) :=
  l.seek_head .useAfterDelete .neverReturns fun p =>
    (l.node .useAfterDelete p).map (·.data.has cb)

def handler_remove (k : Kind) (a : Agent) (thread : Nat) (cb : Nat) : Except Fault Agent := do
  let a ← a.enter thread
  let (current, remove) ← find_cb (a.ua.lists k) cb
  match remove with
  | none => .ok (a.leave thread)
  | some p =>
    let l ← (a.ua.lists k).unlink .useAfterDelete current p
    .ok ({ a with ua := a.ua.set_list k l }.leave thread)

def xmpp_ua_conn_handler_remove := handler_remove .conn

def xmpp_ua_msg_handler_remove := handler_remove .msg

def xmpp_ua_presence_handler_remove := handler_remove .presence

def xmpp_ua_iq_handler_remove := handler_remove .iq

/-- A look-up in the list `k`, that leaves by `missing` when it finds nothing. -/
def get_userdata (k : Kind) (missing : Agent → Nat → Agent) (a : Agent) (thread : Nat)
    (cb : Nat) : Except Fault (Nat × Agent) := do
  let a ← a.enter thread
  let (_, found) ← find_cb (a.ua.lists k) cb
  match found with
  | none => .ok (NULL, missing a thread)
  | some p =>
    let n ← (a.ua.lists k).node .useAfterDelete p
    .ok (n.data.userdata, a.leave thread)

def xmpp_ua_conn_get_userdata := get_userdata .conn Agent.leave

def xmpp_ua_presence_get_userdata := get_userdata .presence Agent.leave

def xmpp_ua_iq_get_userdata := get_userdata .iq Agent.leave

/-- The look-up in the message list releases `_mutex_4_conn` when it finds nothing. -/
def xmpp_ua_msg_get_userdata := get_userdata .msg fun a thread =>
  { a with mutex_4_conn := ReleaseMutex a.mutex_4_conn thread }

/-- A new agent. Its own handler is the first one of the message list. -/
def xmpp_ua_new (thread ua : Nat) : Except Fault Agent :=
  xmpp_ua_msg_handler_add
    { ua := { mutex_4_ua := CreateMutex, lists := fun _ => .empty }, mutex_4_conn := CreateMutex }
    thread { cb := zkmse_receive_rsp, userdata := ua }

inductive Call
  | add (k : Kind) (h : cb_data)
  | remove (k : Kind) (cb : Nat)
  | get_userdata (k : Kind) (cb : Nat)
  deriving DecidableEq, Repr

/-- One call by a thread, with what a look-up returns. -/
def Agent.call (a : Agent) (thread : Nat) : Call → Except Fault (List Nat × Agent)
  | .add .conn h => (xmpp_ua_conn_handler_add a thread h).map ([], ·)
  | .add .msg h => (xmpp_ua_msg_handler_add a thread h).map ([], ·)
  | .add .presence h => (xmpp_ua_presence_handler_add a thread h).map ([], ·)
  | .add .iq h => (xmpp_ua_iq_handler_add a thread h).map ([], ·)
  | .remove .conn cb => (xmpp_ua_conn_handler_remove a thread cb).map ([], ·)
  | .remove .msg cb => (xmpp_ua_msg_handler_remove a thread cb).map ([], ·)
  | .remove .presence cb => (xmpp_ua_presence_handler_remove a thread cb).map ([], ·)
  | .remove .iq cb => (xmpp_ua_iq_handler_remove a thread cb).map ([], ·)
  | .get_userdata .conn cb => (xmpp_ua_conn_get_userdata a thread cb).map (.map ([·]) id)
  | .get_userdata .msg cb => (xmpp_ua_msg_get_userdata a thread cb).map (.map ([·]) id)
  | .get_userdata .presence cb => (xmpp_ua_presence_get_userdata a thread cb).map (.map ([·]) id)
  | .get_userdata .iq cb => (xmpp_ua_iq_get_userdata a thread cb).map (.map ([·]) id)

/-! ## Plain lists -/

/-- The four lists as sequences. -/
abbrev Sequences := Kind → List cb_data

def find_userdata (cb : Nat) (hs : List cb_data) : Nat :=
  ((hs.find? (·.has cb)).map cb_data.userdata).getD NULL

def Sequences.call (s : Sequences) : Call → List Nat × Sequences
  | .add k h => ([], Function.update s k (s k ++ [h]))
  | .remove k cb => ([], Function.update s k ((s k).eraseP (·.has cb)))
  | .get_userdata k cb => ([find_userdata cb (s k)], s)

/-- The agent beside the sequences, with the look-ups of both. -/
structure Both where
  agent : Agent
  returned : List Nat
  sequences : Sequences
  expected : List Nat

def step (s : Both) (a : Nat × Call) : Except Fault Both :=
  (s.agent.call a.1 a.2).map fun r =>
    { agent := r.2
      returned := s.returned ++ r.1
      sequences := (s.sequences.call a.2).2
      expected := s.expected ++ (s.sequences.call a.2).1 }

/-- The list has the handlers `hs`, and its tail is behind its last node. -/
def Represents (l : TailList cb_data) (hs : List cb_data) : Prop :=
  ∃ xs, l.contents Fault.useAfterDelete .neverReturns = .ok xs ∧ xs.map Prod.snd = hs ∧
    l.tail = lastPlace xs

/-- Each list has the handlers of its sequence, the look-ups agree, and no thread holds
the mutex. -/
structure Refines (s : Both) : Prop where
  lists : ∀ k, Represents (s.agent.ua.lists k) (s.sequences k)
  answers : s.returned = s.expected
  free : s.agent.ua.mutex_4_ua = CreateMutex

/-- The first handler `cb` is the last one of the list. -/
def first_is_last (cb : Nat) (hs : List cb_data) : Prop :=
  ∃ before h, hs = before ++ [h] ∧ h.cb = cb ∧ ∀ g ∈ before, g.cb ≠ cb

/-- The call removes no last handler, and looks for no message handler that is not there. -/
def Both.safe (s : Both) (a : Nat × Call) : Prop :=
  match a.2 with
  | .remove k cb => ¬ first_is_last cb (s.sequences k)
  | .get_userdata .msg cb => ∃ h ∈ s.sequences .msg, h.cb = cb
  | _ => True

/-! ## What each call does -/

/-- The agent with another list, and with its mutex free. -/
def Agent.with_list (a : Agent) (k : Kind) (l : TailList cb_data) : Agent :=
  { a with ua := { a.ua.set_list k l with mutex_4_ua := CreateMutex } }

section

variable {a : Agent} {k : Kind} {thread cb : Nat} {xs : List (Nat × cb_data)}

theorem enter_eq (h : a.ua.mutex_4_ua = CreateMutex) (thread : Nat) :
    a.enter thread =
      .ok { a with ua := { a.ua with mutex_4_ua := { owner := some (thread, 1) } } } := by
  simp [Agent.enter, h, CreateMutex, WaitForSingleObject, Except.map]

theorem release_once (thread : Nat) :
    ReleaseMutex { owner := some (thread, 1) } thread = CreateMutex := by
  simp [ReleaseMutex, CreateMutex]

theorem handler_add_eq (hfree : a.ua.mutex_4_ua = CreateMutex) (h : Holds (a.ua.lists k) xs)
    (thread : Nat) (d : cb_data) :
    ∃ l, handler_add k a thread d = .ok (a.with_list k l) ∧
      Holds l (xs ++ [((a.ua.lists k).fresh, d)]) := by
  obtain ⟨l, hl, hholds⟩ := h.append Fault.useAfterDelete d
  refine ⟨l, ?_, hholds⟩
  simp only [handler_add, enter_eq hfree, ok_bind, hl, Agent.leave, xmpp_ua_t.set_list,
    release_once]
  rfl

theorem find_cb_eq {l : TailList cb_data} (h : Holds l xs) (cb : Nat) :
    find_cb l cb = .ok (lastPlace (xs.takeWhile (!·.2.has cb)),
      (xs.find? (·.2.has cb)).map Prod.fst) := by
  refine h.seek_eq _ _ fun x hx => ?_
  obtain ⟨before, after, rfl⟩ := List.append_of_mem hx
  obtain ⟨n, hn, hdata, -⟩ := h.chain.split
  simp [TailList.node, hn, hdata, Except.map]

/-- The loop of a list without the handler. -/
theorem find_cb_none {l : TailList cb_data} (h : Holds l xs) (hno : ∀ x ∈ xs, x.2.cb ≠ cb) :
    ∃ place, find_cb l cb = .ok (place, none) := by
  have hfind : xs.find? (·.2.has cb) = none := by
    rw [List.find?_eq_none]
    exact fun x hx => by simpa [cb_data.has] using hno x hx
  exact ⟨_, by rw [find_cb_eq h, hfind]; rfl⟩

/-- The loop of a list with the handler ends at the first node that has it. -/
theorem find_cb_some {l : TailList cb_data} {before after : List (Nat × cb_data)}
    {x : Nat × cb_data} (h : Holds l (before ++ x :: after)) (hx : x.2.cb = cb)
    (hno : ∀ y ∈ before, y.2.cb ≠ cb) : find_cb l cb = .ok (lastPlace before, some x.1) := by
  have hall : ∀ y ∈ before, (!y.2.has cb) = true := fun y hy => by
    simpa [cb_data.has] using hno y hy
  have htake : (before ++ x :: after).takeWhile (!·.2.has cb) = before := by
    rw [List.takeWhile_append_of_pos hall,
      List.takeWhile_cons_of_neg (by simpa [cb_data.has] using hx), List.append_nil]
  have hfind : (before ++ x :: after).find? (·.2.has cb) = some x := by
    rw [List.find?_eq_some_iff_append]
    exact ⟨by simpa [cb_data.has] using hx, before, after, rfl, hall⟩
  rw [find_cb_eq h, htake, hfind]
  rfl

/-- A list with the handler, split at the first node that has it. -/
theorem first_split (cb : Nat) (xs : List (Nat × cb_data)) :
    (∀ x ∈ xs, x.2.cb ≠ cb) ∨
    ∃ before x after, xs = before ++ x :: after ∧ x.2.cb = cb ∧ ∀ y ∈ before, y.2.cb ≠ cb := by
  cases hfind : xs.find? (·.2.has cb) with
  | none =>
    rw [List.find?_eq_none] at hfind
    exact .inl fun x hx => by simpa [cb_data.has] using hfind x hx
  | some x =>
    obtain ⟨hx, before, after, heq, hno⟩ := List.find?_eq_some_iff_append.mp hfind
    exact .inr ⟨before, x, after, heq, by simpa [cb_data.has] using hx,
      fun y hy => by simpa [cb_data.has] using hno y hy⟩

theorem handler_remove_none (hfree : a.ua.mutex_4_ua = CreateMutex) (h : Holds (a.ua.lists k) xs)
    (hno : ∀ x ∈ xs, x.2.cb ≠ cb) (thread : Nat) :
    handler_remove k a thread cb = .ok (a.with_list k (a.ua.lists k)) := by
  obtain ⟨place, hfind⟩ := find_cb_none h hno
  simp only [handler_remove, enter_eq hfree, ok_bind, hfind, Agent.leave, release_once,
    Agent.with_list, xmpp_ua_t.set_list, Function.update_eq_self]

theorem handler_remove_some (hfree : a.ua.mutex_4_ua = CreateMutex)
    {before after : List (Nat × cb_data)} {x : Nat × cb_data}
    (h : Holds (a.ua.lists k) (before ++ x :: after)) (hx : x.2.cb = cb)
    (hno : ∀ y ∈ before, y.2.cb ≠ cb) {l : TailList cb_data}
    (hl : (a.ua.lists k).unlink Fault.useAfterDelete (lastPlace before) x.1 = .ok l)
    (thread : Nat) : handler_remove k a thread cb = .ok (a.with_list k l) := by
  simp only [handler_remove, enter_eq hfree, ok_bind, find_cb_some h hx hno, hl, Agent.leave,
    release_once, Agent.with_list, xmpp_ua_t.set_list]

theorem get_userdata_none (missing : Agent → Nat → Agent)
    (hfree : a.ua.mutex_4_ua = CreateMutex) (h : Holds (a.ua.lists k) xs)
    (hno : ∀ x ∈ xs, x.2.cb ≠ cb) (thread : Nat) :
    get_userdata k missing a thread cb = .ok (NULL,
      missing { a with ua := { a.ua with mutex_4_ua := { owner := some (thread, 1) } } } thread)
    := by
  obtain ⟨place, hfind⟩ := find_cb_none h hno
  simp only [get_userdata, enter_eq hfree, ok_bind, hfind]

theorem get_userdata_some (missing : Agent → Nat → Agent)
    (hfree : a.ua.mutex_4_ua = CreateMutex) {before after : List (Nat × cb_data)}
    {x : Nat × cb_data} (h : Holds (a.ua.lists k) (before ++ x :: after)) (hx : x.2.cb = cb)
    (hno : ∀ y ∈ before, y.2.cb ≠ cb) (thread : Nat) :
    get_userdata k missing a thread cb =
      .ok (x.2.userdata, a.with_list k (a.ua.lists k)) := by
  obtain ⟨n, hn, hdata, -⟩ := h.chain.split
  have hnode : (a.ua.lists k).node Fault.useAfterDelete x.1 = .ok n := by
    simp only [TailList.node, hn]
  simp only [get_userdata, enter_eq hfree, ok_bind, find_cb_some h hx hno, hnode, hdata,
    Agent.leave, release_once, Agent.with_list, xmpp_ua_t.set_list, Function.update_eq_self]

end

/-! ## The invariant -/

/-- The lists are well formed and hold the sequences. -/
structure Keeps (s : Both) : Prop where
  lists : ∀ k, ∃ xs, Holds (s.agent.ua.lists k) xs ∧ xs.map Prod.snd = s.sequences k
  answers : s.returned = s.expected
  free : s.agent.ua.mutex_4_ua = CreateMutex

theorem Keeps.refines {s : Both} (h : Keeps s) : Refines s := by
  refine ⟨fun k => ?_, h.answers, h.free⟩
  obtain ⟨xs, hxs, heq⟩ := h.lists k
  exact ⟨xs, hxs.contents_eq _ _, heq, hxs.tail⟩

/-- How a look-up leaves when it finds nothing. -/
def missing : Kind → Agent → Nat → Agent
  | .msg => fun a thread => { a with mutex_4_conn := ReleaseMutex a.mutex_4_conn thread }
  | _ => Agent.leave

section

variable (a : Agent) (k : Kind) (thread cb : Nat) (d : cb_data)

theorem call_add : a.call thread (.add k d) = (handler_add k a thread d).map ([], ·) := by
  cases k <;> rfl

theorem call_remove :
    a.call thread (.remove k cb) = (handler_remove k a thread cb).map ([], ·) := by
  cases k <;> rfl

theorem call_get_userdata : a.call thread (.get_userdata k cb) =
    (get_userdata k (missing k) a thread cb).map (.map ([·]) id) := by
  cases k <;> rfl

end

section

variable {s : Both} {k : Kind} {l : TailList cb_data} {xs : List (Nat × cb_data)}
  {hs : List cb_data}

/-- A change of one list beside the same change of its sequence. -/
theorem Keeps.with_list (h : Keeps s) (hl : Holds l xs) (hxs : xs.map Prod.snd = hs)
    (answers : List Nat) :
    Keeps { agent := s.agent.with_list k l
            returned := s.returned ++ answers
            sequences := Function.update s.sequences k hs
            expected := s.expected ++ answers } := by
  refine ⟨fun j => ?_, congrArg (· ++ answers) h.answers, rfl⟩
  by_cases hj : j = k
  · subst hj
    exact ⟨xs, by simpa [Agent.with_list, xmpp_ua_t.set_list] using hl, by simpa using hxs⟩
  · simpa [Agent.with_list, xmpp_ua_t.set_list, hj] using h.lists j

/-- The same without a change of the sequences. -/
theorem Keeps.same (h : Keeps s) (k : Kind) (answers : List Nat) :
    Keeps { agent := s.agent.with_list k (s.agent.ua.lists k)
            returned := s.returned ++ answers
            sequences := s.sequences
            expected := s.expected ++ answers } := by
  refine ⟨fun j => ?_, congrArg (· ++ answers) h.answers, rfl⟩
  simpa [Agent.with_list, xmpp_ua_t.set_list] using h.lists j

end

theorem add_keeps {s : Both} (h : Keeps s) (thread : Nat) (k : Kind) (d : cb_data) :
    ∃ t, step s (thread, .add k d) = .ok t ∧ Keeps t := by
  obtain ⟨xs, hxs, heq⟩ := h.lists k
  obtain ⟨l, hadd, hl⟩ := handler_add_eq h.free hxs thread d
  refine ⟨_, by simp only [step, call_add, hadd, Except.map]; rfl, h.with_list hl ?_ []⟩
  rw [List.map_append, heq]
  rfl

theorem remove_keeps {s : Both} (h : Keeps s) (thread : Nat) (k : Kind) (cb : Nat)
    (hsafe : ¬ first_is_last cb (s.sequences k)) :
    ∃ t, step s (thread, .remove k cb) = .ok t ∧ Keeps t := by
  obtain ⟨xs, hxs, heq⟩ := h.lists k
  rcases first_split cb xs with hno | ⟨before, x, after, rfl, hx, hno⟩
  · refine ⟨_, by simp only [step, call_remove, handler_remove_none h.free hxs hno,
      Except.map]; rfl, ?_⟩
    have hsame : (s.sequences k).eraseP (·.has cb) = s.sequences k := by
      refine List.eraseP_of_forall_not fun d hd => ?_
      rw [← heq] at hd
      obtain ⟨y, hy, rfl⟩ := List.mem_map.mp hd
      simpa [cb_data.has] using hno y hy
    simp only [Sequences.call, hsame, Function.update_eq_self]
    exact h.same k []
  · have hafter : after ≠ [] := by
      rintro rfl
      refine hsafe ⟨before.map Prod.snd, x.2, ?_, hx, ?_⟩
      · rw [← heq, List.map_append]
        rfl
      · intro g hg
        obtain ⟨y, hy, rfl⟩ := List.mem_map.mp hg
        exact hno y hy
    obtain ⟨l, hunlink, hl⟩ := hxs.unlink_inner hafter Fault.useAfterDelete
    refine ⟨_, by simp only [step, call_remove, handler_remove_some h.free hxs hx hno hunlink,
      Except.map]; rfl, h.with_list hl ?_ []⟩
    rw [← heq, List.map_append, List.map_append, List.map_cons, List.eraseP_append_right,
      List.eraseP_cons_of_pos (by simpa [cb_data.has] using hx)]
    intro d hd
    obtain ⟨y, hy, rfl⟩ := List.mem_map.mp hd
    simpa [cb_data.has] using hno y hy

theorem find_userdata_none {cb : Nat} {hs : List cb_data} (h : ∀ d ∈ hs, d.cb ≠ cb) :
    find_userdata cb hs = NULL := by
  have hfind : hs.find? (·.has cb) = none := by
    rw [List.find?_eq_none]
    exact fun d hd => by simpa [cb_data.has] using h d hd
  simp [find_userdata, hfind]

theorem find_userdata_some {cb : Nat} {before after : List cb_data} {d : cb_data}
    (hd : d.cb = cb) (hno : ∀ g ∈ before, g.cb ≠ cb) :
    find_userdata cb (before ++ d :: after) = d.userdata := by
  have hfind : (before ++ d :: after).find? (·.has cb) = some d := by
    rw [List.find?_eq_some_iff_append]
    exact ⟨by simpa [cb_data.has] using hd, before, after, rfl,
      fun g hg => by simpa [cb_data.has] using hno g hg⟩
  simp [find_userdata, hfind]

/-- A look-up that leaves by the mutex of the agent, or finds its handler. -/
theorem get_userdata_keeps {s : Both} (h : Keeps s) (thread : Nat) (k : Kind) (cb : Nat)
    (hsafe : k = .msg → ∃ d ∈ s.sequences k, d.cb = cb) :
    ∃ t, step s (thread, .get_userdata k cb) = .ok t ∧ Keeps t := by
  obtain ⟨xs, hxs, heq⟩ := h.lists k
  rcases first_split cb xs with hno | ⟨before, x, after, rfl, hx, hno⟩
  · have hseq : ∀ d ∈ s.sequences k, d.cb ≠ cb := by
      intro d hd
      rw [← heq] at hd
      obtain ⟨y, hy, rfl⟩ := List.mem_map.mp hd
      exact hno y hy
    have hleave : missing k = Agent.leave := by
      cases k with
      | msg =>
        obtain ⟨d, hd, hcb⟩ := hsafe rfl
        exact absurd hcb (hseq d hd)
      | _ => rfl
    refine ⟨_, by simp only [step, call_get_userdata,
      get_userdata_none (missing k) h.free hxs hno, Except.map]; rfl, ?_⟩
    simp only [hleave, Agent.leave, release_once, Sequences.call, find_userdata_none hseq]
    simpa [Agent.with_list, xmpp_ua_t.set_list] using h.same k [NULL]
  · refine ⟨_, by simp only [step, call_get_userdata,
      get_userdata_some (missing k) h.free hxs hx hno, Except.map]; rfl, ?_⟩
    have hfind : find_userdata cb (s.sequences k) = x.2.userdata := by
      rw [← heq, List.map_append, List.map_cons]
      refine find_userdata_some hx fun g hg => ?_
      obtain ⟨y, hy, rfl⟩ := List.mem_map.mp hg
      exact hno y hy
    simp only [Sequences.call, hfind]
    exact h.same k [x.2.userdata]

theorem safe_keeps (s : Both) (a : Nat × Call) (h : Keeps s) (hsafe : s.safe a) :
    ∃ t, step s a = .ok t ∧ Keeps t := by
  obtain ⟨thread, call⟩ := a
  cases call with
  | add k d => exact add_keeps h thread k d
  | remove k cb => exact remove_keeps h thread k cb hsafe
  | get_userdata k cb =>
    refine get_userdata_keeps h thread k cb fun hk => ?_
    subst hk
    exact hsafe

/-! ## What breaks the lists -/

/-- The tail of a list whose last node was removed is in that node. -/
theorem removed_last_breaks {s t : Both} (h : Keeps s) {thread : Nat} {k : Kind} {cb : Nat}
    (hlast : first_is_last cb (s.sequences k)) (hstep : step s (thread, .remove k cb) = .ok t) :
    ¬ Refines t := by
  intro hr
  obtain ⟨xs, hxs, heq⟩ := h.lists k
  obtain ⟨before', d, hseq, hd, hno'⟩ := hlast
  obtain ⟨before, last, rfl, rfl, hlast⟩ := List.map_eq_append_iff.mp (heq.trans hseq)
  obtain ⟨x, rfl, rfl⟩ := List.map_eq_singleton_iff.mp hlast
  have hno : ∀ y ∈ before, y.2.cb ≠ cb := fun y hy => hno' _ (List.mem_map_of_mem hy)
  obtain ⟨l, hunlink, htail, hfresh, hchain⟩ := hxs.unlink Fault.useAfterDelete
  simp only [step, call_remove, handler_remove_some h.free hxs hd hno hunlink, Except.map] at hstep
  cases hstep
  obtain ⟨ys, hcontents, -, hys⟩ := hr.lists k
  simp only [Agent.with_list, xmpp_ua_t.set_list, Function.update_self] at hcontents hys
  rw [List.append_nil] at hchain
  have hlen := hxs.length_le
  rw [List.length_append] at hlen
  have hwalk : l.contents Fault.useAfterDelete .neverReturns = .ok before :=
    hchain.walk_eq _ _ (by omega)
  rw [hwalk] at hcontents
  cases hcontents
  -- The tail is still the place behind `x`, and no place behind `before` is.
  rw [htail, hxs.tail, lastPlace_append] at hys
  rcases List.eq_nil_or_concat' before with rfl | ⟨init, y, rfl⟩
  · cases hys
  · rw [lastPlace_append, Place.next.injEq] at hys
    have hnodup := hxs.nodup
    rw [List.map_append] at hnodup
    have hy : y.1 ∈ (init ++ [y]).map Prod.fst := List.mem_map_of_mem (by simp)
    exact (List.nodup_append.mp hnodup).2.2 _ hy _ List.mem_cons_self hys.symm

/-- After a look-up in the message list that finds nothing, the mutex is held. -/
theorem missing_msg_breaks {s t : Both} (h : Keeps s) {thread cb : Nat}
    (hno : ∀ d ∈ s.sequences .msg, d.cb ≠ cb)
    (hstep : step s (thread, .get_userdata .msg cb) = .ok t) : ¬ Refines t := by
  intro hr
  obtain ⟨xs, hxs, heq⟩ := h.lists .msg
  have hno' : ∀ x ∈ xs, x.2.cb ≠ cb := fun x hx => hno _ (heq ▸ List.mem_map_of_mem hx)
  simp only [step, call_get_userdata, get_userdata_none (missing .msg) h.free hxs hno',
    Except.map] at hstep
  cases hstep
  cases hr.free

theorem refines_safe (s : Both) (a : Nat × Call) (t : Both) (h : Keeps s)
    (hstep : step s a = .ok t) (hr : Refines t) : s.safe a := by
  obtain ⟨thread, call⟩ := a
  cases call with
  | add k d => trivial
  | remove k cb => exact fun hlast => removed_last_breaks h hlast hstep hr
  | get_userdata k cb =>
    cases k with
    | msg =>
      by_contra hno
      exact missing_msg_breaks h (fun d hd hcb => hno ⟨d, hd, hcb⟩) hstep hr
    | _ => trivial

/-! ## The law -/

/-- A new agent beside its sequences. -/
def Both.start (agent : Agent) (ua : Nat) : Both :=
  { agent := agent
    returned := []
    sequences := Function.update (fun _ => []) .msg [{ cb := zkmse_receive_rsp, userdata := ua }]
    expected := [] }

theorem new_keeps (thread ua : Nat) :
    ∃ agent, xmpp_ua_new thread ua = .ok agent ∧ Keeps (Both.start agent ua) := by
  have hempty : Keeps
      { agent := { ua := { mutex_4_ua := CreateMutex, lists := fun _ => .empty }
                   mutex_4_conn := CreateMutex }
        returned := [], sequences := fun _ => [], expected := [] } :=
    ⟨fun _ => ⟨[], holds_empty, rfl⟩, rfl, rfl⟩
  obtain ⟨l, hadd, hl⟩ := handler_add_eq (k := .msg) hempty.free holds_empty thread
    { cb := zkmse_receive_rsp, userdata := ua }
  exact ⟨_, hadd, hempty.with_list hl rfl []⟩

/-- The four lists of an agent are the four sequences after every call of every run, each
with its tail behind its last node and with the mutex free, exactly in the runs in which no
call removes a last handler, and no call looks for a message handler that is not there. -/
theorem the_handler_lists_refine_sequences_while_no_last_one_goes (thread ua : Nat) :
    ∃ agent, xmpp_ua_new thread ua = .ok agent ∧ ∀ calls,
      (Along step Refines (Both.start agent ua) calls ↔
        Meets step Both.safe (Both.start agent ua) calls) := by
  obtain ⟨agent, hnew, hkeeps⟩ := new_keeps thread ua
  exact ⟨agent, hnew, fun calls =>
    along_iff_meets (fun _ h => h.refines) safe_keeps refines_safe calls hkeeps⟩

/-- A removal of the only presence handler, and the next addition. -/
def removed_last : List (Nat × Call) :=
  [(0, .add .presence { cb := 5, userdata := 6 }), (0, .remove .presence 5),
    (0, .add .presence { cb := 7, userdata := 8 })]

/-- The addition after the removal writes to the freed node. After a look-up of a message
handler that is not there, a second thread waits for ever. -/
theorem a_handler_list_breaks_after_its_last_one_goes :
    ((xmpp_ua_new 0 2).bind fun agent => run step (Both.start agent 2) removed_last).map
        (fun _ => ()) = .error .useAfterDelete ∧
      ((xmpp_ua_new 0 2).bind fun agent => run step (Both.start agent 2)
        [(0, .get_userdata .msg 9), (1, .get_userdata .msg 9)]).map (fun _ => ()) =
        .error .neverReturns ∧
      ¬ ∀ agent, xmpp_ua_new 0 2 = .ok agent → ∀ calls,
        Along step Refines (Both.start agent 2) calls := by
  have hfault : ((xmpp_ua_new 0 2).bind fun agent => run step (Both.start agent 2)
      removed_last).map (fun _ => ()) = .error .useAfterDelete := by decide +kernel
  refine ⟨hfault, by decide +kernel, fun hall => ?_⟩
  obtain ⟨agent, hnew, -⟩ := new_keeps 0 2
  obtain ⟨t, ht⟩ := along_ends (hall agent hnew removed_last)
  rw [hnew] at hfault
  simp [Except.bind, ht, Except.map] at hfault

end zonekey_mcu.xmpp_ua
