-- The publisher sends the packets of one source to its sessions. A session with
-- no known remote address waits in the pending list, until the ticker thread
-- has seen a packet from its client on both of its sockets. The two lists have
-- two locks, and each locked section is one step here.
import ZonekeyMcu.Lib.Runs

open runs

namespace zonekey_mcu.publisher

/-! ## The filter -/

/-- The remote address that a session holds. It is unknown while the family and
the port are 0. -/
structure RemAddr where
  sin_family : Nat
  sin_port : Nat
  ip : String
  rtcp_port : Nat

def AF_INET : Nat := 2

/-- A client that did not send yet. -/
structure PendingRS (S : Type) where
  rs : S
  client_ip : String
  client_rtp_port : Nat
  client_rtcp_port : Nat

def PendingRS.new {S : Type} (rs : S) : PendingRS S where
  rs := rs
  client_ip := ""
  client_rtp_port := 0
  client_rtcp_port := 0

/-- The object of the class `CTX`. `S` stands for the pointers to sessions. -/
structure CTX (S : Type) where
  rtp_sessions_ : List S
  pendings_ : List (PendingRS S)

/-- The sender of the first packet on a socket, if `recvfrom` sees one. -/
abbrev Peek := Option (String × Nat)

variable {S : Type} [DecidableEq S]

def CTX.add_remote (ctx : CTX S) (addr : RemAddr) (rs : S) : CTX S :=
  if addr.sin_family = 0 ∧ addr.sin_port = 0 then
    { ctx with pendings_ := ctx.pendings_ ++ [PendingRS.new rs] }
  else { ctx with rtp_sessions_ := ctx.rtp_sessions_ ++ [rs] }

/-- The first section of `del_remote`, under `cs_rtp_sessions_`. -/
def CTX.del_sending (ctx : CTX S) (rs : S) : CTX S :=
  { ctx with rtp_sessions_ := ctx.rtp_sessions_.erase rs }

/-- The second section of `del_remote`, under `cs_pendings_`. -/
def CTX.del_pending (ctx : CTX S) (rs : S) : CTX S :=
  { ctx with pendings_ := ctx.pendings_.eraseP fun ps => ps.rs = rs }

/-- The sessions that `dispatch_all` sends a packet through, in order. -/
def CTX.dispatch_all (ctx : CTX S) : List S := ctx.rtp_sessions_

def op_chk_recved (ps : PendingRS S) : Bool :=
  decide (0 < ps.client_rtp_port) && decide (0 < ps.client_rtcp_port)

def try_rtp (ps : PendingRS S) (rtp : Peek) : PendingRS S :=
  match ps.client_rtp_port, rtp with
  | 0, some (ip, port) => { ps with client_rtp_port := port, client_ip := ip }
  | _, _ => ps

def try_rtcp (ps : PendingRS S) (rtcp : Peek) : PendingRS S :=
  match ps.client_rtcp_port, rtcp with
  | 0, some (ip, port) => { ps with client_rtcp_port := port, client_ip := ip }
  | _, _ => ps

/-- The two peeks of `TryRecv::operator()`. -/
def try_recv (ps : PendingRS S) (rtp rtcp : Peek) : PendingRS S := try_rtcp (try_rtp ps rtp) rtcp

/-- The address that `rtp_session_set_remote_addr_and_port` gives a session. -/
def client_addr (ps : PendingRS S) : RemAddr where
  sin_family := AF_INET
  sin_port := ps.client_rtp_port
  ip := ps.client_ip
  rtcp_port := ps.client_rtcp_port

/-- `TryRecv` on the pending session `i`: the sockets are read, and a session
with both ports goes to the sending list, under `cs_rtp_sessions_`. -/
def CTX.try_session (ctx : CTX S) (i : Nat) (ps : PendingRS S) : CTX S :=
  { pendings_ := ctx.pendings_.set i ps
    rtp_sessions_ := if op_chk_recved ps then ctx.rtp_sessions_ ++ [ps.rs]
      else ctx.rtp_sessions_ }

/-- The end of `chk_pendings`: the moved sessions leave the pending list. -/
def CTX.drop_recved (ctx : CTX S) : CTX S :=
  { ctx with pendings_ := ctx.pendings_.filter fun ps => !op_chk_recved ps }

/-! ## Interleavings -/

/-- The filter, and where each thread stands. -/
structure World (S : Type) where
  ctx : CTX S
  rem_addr : S → RemAddr
  /-- A pass of `chk_pendings` that holds `cs_pendings_`, and its next index. -/
  pass : Option Nat
  /-- The calls of `del_remote` between their two sections, and whether the
  session was added before the call. -/
  mid : List (S × Bool)
  /-- The sessions given to `add_remote` so far. -/
  added : List S
  /-- The sessions that were added, and whose `del_remote` has returned. -/
  removed : List S

def World.new (rem_addr : S → RemAddr) : World S where
  ctx := { rtp_sessions_ := [], pendings_ := [] }
  rem_addr := rem_addr
  pass := none
  mid := []
  added := []
  removed := []

/-- One locked section of a thread. -/
inductive Op (S : Type)
  | add_remote (rs : S)
  | del_sending (rs : S)
  | del_pending (rs : S) (was_added : Bool)
  | chk_begin
  | chk_try (rtp rtcp : Peek)
  | chk_end
  | dispatch_all

/-- Why a section cannot run now: a lock, or the thread is not there. -/
inductive Blocked
  | addedBefore
  | pendingsLocked
  | notThere
  deriving DecidableEq, Repr

/-- `TryRecv` on the pending session `i`, for what its sockets give. -/
def World.chk_try (w : World S) (i : Nat) (ps : PendingRS S) : World S :=
  { w with
    ctx := w.ctx.try_session i ps
    rem_addr := fun rs =>
      if op_chk_recved ps ∧ rs = ps.rs then client_addr ps else w.rem_addr rs
    pass := some (i + 1) }

def step (w : World S) : Op S → Except Blocked (World S)
  | .add_remote rs =>
    if rs ∈ w.added then .error .addedBefore
    else
      let addr := w.rem_addr rs
      -- The branch of the pending list waits for cs_pendings_.
      if addr.sin_family = 0 ∧ addr.sin_port = 0 ∧ w.pass ≠ none then .error .pendingsLocked
      else .ok { w with ctx := w.ctx.add_remote addr rs, added := rs :: w.added }
  | .del_sending rs =>
    .ok { w with ctx := w.ctx.del_sending rs, mid := (rs, decide (rs ∈ w.added)) :: w.mid }
  | .del_pending rs was_added =>
    if (rs, was_added) ∉ w.mid then .error .notThere
    else if w.pass ≠ none then .error .pendingsLocked
    else .ok { w with
      ctx := w.ctx.del_pending rs
      mid := w.mid.erase (rs, was_added)
      removed := if was_added then rs :: w.removed else w.removed }
  | .chk_begin => if w.pass ≠ none then .error .notThere else .ok { w with pass := some 0 }
  | .chk_try rtp rtcp => match w.pass with
    | none => .error .notThere
    | some i => match w.ctx.pendings_[i]? with
      | none => .error .notThere
      | some ps => .ok (w.chk_try i (try_recv ps rtp rtcp))
  | .chk_end => match w.pass with
    | none => .error .notThere
    | some i =>
      if i < w.ctx.pendings_.length then .error .notThere
      else .ok { w with ctx := w.ctx.drop_recved, pass := none }
  -- The packets go out before the pass of the same tick, in the same thread.
  | .dispatch_all => if w.pass ≠ none then .error .notThere else .ok w

/-! ## What a step can do -/

omit [DecidableEq S] in
@[simp] theorem try_recv_rs (ps : PendingRS S) (rtp rtcp : Peek) :
    (try_recv ps rtp rtcp).rs = ps.rs := by
  have hrtp : (try_rtp ps rtp).rs = ps.rs := by
    unfold try_rtp
    split <;> rfl
  have hrtcp : (try_rtcp (try_rtp ps rtp) rtcp).rs = (try_rtp ps rtp).rs := by
    unfold try_rtcp
    split <;> rfl
  exact hrtcp.trans hrtp

/-- What each section that runs found and did. -/
inductive Took (w : World S) : Op S → World S → Prop
  | add_remote (rs : S) (hnew : rs ∉ w.added)
      (hlock : w.pass = none ∨
        w.ctx.add_remote (w.rem_addr rs) rs =
          { w.ctx with rtp_sessions_ := w.ctx.rtp_sessions_ ++ [rs] }) :
      Took w (.add_remote rs)
        { w with ctx := w.ctx.add_remote (w.rem_addr rs) rs, added := rs :: w.added }
  | del_sending (rs : S) :
      Took w (.del_sending rs)
        { w with ctx := w.ctx.del_sending rs, mid := (rs, decide (rs ∈ w.added)) :: w.mid }
  | del_pending (rs : S) (was_added : Bool) (hmid : (rs, was_added) ∈ w.mid)
      (hlock : w.pass = none) :
      Took w (.del_pending rs was_added)
        { w with
          ctx := w.ctx.del_pending rs
          mid := w.mid.erase (rs, was_added)
          removed := if was_added then rs :: w.removed else w.removed }
  | chk_begin (hlock : w.pass = none) : Took w .chk_begin { w with pass := some 0 }
  | chk_try (rtp rtcp : Peek) (i : Nat) (ps : PendingRS S) (hpass : w.pass = some i)
      (hps : w.ctx.pendings_[i]? = some ps) :
      Took w (.chk_try rtp rtcp) (w.chk_try i (try_recv ps rtp rtcp))
  | chk_end (i : Nat) (hpass : w.pass = some i) (hlen : w.ctx.pendings_.length ≤ i) :
      Took w .chk_end { w with ctx := w.ctx.drop_recved, pass := none }
  | dispatch_all (hlock : w.pass = none) : Took w .dispatch_all w

theorem took_of_step {w w' : World S} {op : Op S} (h : step w op = .ok w') : Took w op w' := by
  cases op with
  | add_remote rs =>
    simp only [step] at h
    split at h
    · cases h
    · rename_i hnew
      split at h
      · cases h
      · rename_i hfree
        cases h
        refine Took.add_remote rs hnew ?_
        by_cases hp : w.pass = none
        · exact Or.inl hp
        · have hknown : ¬((w.rem_addr rs).sin_family = 0 ∧ (w.rem_addr rs).sin_port = 0) :=
            fun hk => hfree ⟨hk.1, hk.2, hp⟩
          exact Or.inr (by simp only [CTX.add_remote, if_neg hknown])
  | del_sending rs =>
    cases h
    exact Took.del_sending rs
  | del_pending rs was_added =>
    simp only [step] at h
    split at h
    · cases h
    · rename_i hmid
      split at h
      · cases h
      · rename_i hp
        cases h
        exact Took.del_pending rs was_added (not_not.mp hmid) (not_not.mp hp)
  | chk_begin =>
    simp only [step] at h
    split at h
    · cases h
    · rename_i hp
      cases h
      exact Took.chk_begin (not_not.mp hp)
  | chk_try rtp rtcp =>
    simp only [step] at h
    split at h
    · cases h
    · rename_i i hp
      split at h
      · cases h
      · rename_i ps hps
        cases h
        exact Took.chk_try rtp rtcp i ps hp hps
  | chk_end =>
    simp only [step] at h
    split at h
    · cases h
    · rename_i i hp
      split at h
      · cases h
      · rename_i hlen
        cases h
        exact Took.chk_end i hp (Nat.le_of_not_lt hlen)
  | dispatch_all =>
    simp only [step] at h
    split at h
    · cases h
    · rename_i hp
      cases h
      exact Took.dispatch_all (not_not.mp hp)

end zonekey_mcu.publisher
