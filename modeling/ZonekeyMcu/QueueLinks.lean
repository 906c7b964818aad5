-- The queues of the RTP library with their links (str_utils.c), and the walks of the receive
-- queue along them. To its callers a linked queue is the list of its messages.
import ZonekeyMcu.Lib.LinkedRings
import ZonekeyMcu.RtpQueue

open linked_rings runs

namespace zonekey_mcu.linked_queue

open rtp_session (Message Fate Fates RTP_SEQ_IS_GREATER RTP_TIMESTAMP_IS_NEWER_THAN putq_from_last
  discard_oldest)

/-! ## The queue -/

/-- What a link points at. -/
inductive Node
  | q_stopper
  | block (mp : Nat)
  deriving DecidableEq

structure queue_t where
  links : Links Node
  q_mcount : Int

/-- The program ends at a link that is NULL. -/
def follow {α : Type} : Option α → Except Fault α
  | none => .error .useAfterDelete
  | some a => .ok a

def qinit : queue_t where
  links := alone .q_stopper
  q_mcount := 0

def qempty (q : queue_t) : Bool := q.links.next .q_stopper = some .q_stopper

/-- The first message, or NULL. -/
def qfirst (q : queue_t) : Option Node :=
  if q.links.next .q_stopper = some .q_stopper then none else q.links.next .q_stopper

def qlast (q : queue_t) : Option Node :=
  if q.links.prev .q_stopper = some .q_stopper then none else q.links.prev .q_stopper

def putq (q : queue_t) (mp : Nat) : Except Fault queue_t := do
  let links ← follow (q.links.link_before .q_stopper (.block mp))
  .ok { links, q_mcount := q.q_mcount + 1 }

/-- `tmp->b_prev` is not read: the first message has the stopper in front of it. -/
def getq (q : queue_t) : Except Fault (Option Nat × queue_t) := do
  let tmp ← follow (q.links.next .q_stopper)
  match tmp with
  | .q_stopper => .ok (none, q)
  | .block mp => do
    let next ← follow (q.links.next (.block mp))
    .ok (some mp, {
      links := {
        next := Function.update (Function.update q.links.next .q_stopper (some next))
          (.block mp) none
        prev := Function.update (Function.update q.links.prev next (some .q_stopper))
          (.block mp) none }
      q_mcount := q.q_mcount - 1 })

/-- In front of `emp`, or at the end when that is NULL. -/
def insq (q : queue_t) (emp : Option Node) (mp : Nat) : Except Fault queue_t :=
  match emp with
  | none => putq q mp
  | some emp => do
    let links ← follow (q.links.link_before emp (.block mp))
    .ok { links, q_mcount := q.q_mcount + 1 }

def remq (q : queue_t) (mp : Nat) : Except Fault queue_t := do
  let links ← follow (q.links.unlink (.block mp))
  .ok { links, q_mcount := q.q_mcount - 1 }

/-! ## The walks of the receive queue -/

section

variable (msg : Nat → Message)

/-- The `while` of `rtp_putq`. The flag is false for a packet that is there already. -/
def putq_walk (mp : Nat) : Nat → queue_t → Node → Except Fault (queue_t × Bool)
  | _, q, .q_stopper => do
    let q ← insq q (qfirst q) mp
    .ok (q, true)
  | 0, _, .block _ => .error .neverReturns
  | fuel + 1, q, .block tmp =>
    if (msg mp).rtp.seq_number = (msg tmp).rtp.seq_number then .ok (q, false)
    else if RTP_SEQ_IS_GREATER (msg mp).rtp.seq_number (msg tmp).rtp.seq_number then do
      let next ← follow (q.links.next (.block tmp))
      let q ← insq q (some next) mp
      .ok (q, true)
    else do
      let prev ← follow (q.links.prev (.block tmp))
      putq_walk mp fuel q prev

def rtp_putq (q : queue_t) (mp : Nat) : Except Fault (queue_t × Bool) :=
  if qempty q then do
    let q ← putq q mp
    .ok (q, true)
  else do
    let tmp ← follow (qlast q)
    putq_walk msg mp q.q_mcount.toNat q tmp

/-- The `while` of `queue_packet`. A queue that is empty stays so. -/
def discard_walk (maxrqsz : Int) : Nat → queue_t → Except Fault (queue_t × List Nat)
  | 0, q => if maxrqsz < q.q_mcount then .error .neverReturns else .ok (q, [])
  | fuel + 1, q =>
    if maxrqsz < q.q_mcount then do
      let (tmp, q) ← getq q
      match tmp with
      | none => .error .neverReturns
      | some tmp => do
        let (q, gone) ← discard_walk maxrqsz fuel q
        .ok (q, tmp :: gone)
    else .ok (q, [])

/-- The `while` of `rtp_getq`, with the packet in hand and the packets that it frees. -/
def getq_walk (timestamp : UInt32) :
    Nat → queue_t → Option Nat → Except Fault (Option Nat × queue_t × List Nat)
  | fuel, q, ret =>
    match qfirst q with
    | none => .ok (ret, q, [])
    | some .q_stopper => .error .useAfterDelete
    | some (.block tmp) =>
      if RTP_TIMESTAMP_IS_NEWER_THAN timestamp (msg tmp).rtp.timestamp then
        if ret.any fun old => (msg tmp).rtp.timestamp = (msg old).rtp.timestamp then .ok (ret, q, [])
        else match fuel with
        | 0 => .error .neverReturns
        | fuel + 1 => do
          let (got, q) ← getq q
          let (ret', q, gone) ← getq_walk timestamp fuel q got
          .ok (ret', q, ret.toList ++ gone)
      else .ok (ret, q, [])

def rtp_getq (q : queue_t) (timestamp : UInt32) :
    Except Fault (Option Nat × queue_t × List Nat) :=
  if qempty q then .ok (none, q, []) else getq_walk msg timestamp q.q_mcount.toNat q none

def rtp_getq_permissive (q : queue_t) (timestamp : UInt32) :
    Except Fault (Option Nat × queue_t) :=
  if qempty q then .ok (none, q)
  else match qfirst q with
  | some (.block tmp) =>
    if RTP_TIMESTAMP_IS_NEWER_THAN timestamp (msg tmp).rtp.timestamp then getq q
    else .ok (none, q)
  | _ => .error .useAfterDelete

end

/-! ## A queue as a list -/

/-- The queue links `ps`, first to last, and counts them. -/
structure Lists (q : queue_t) (ps : List Nat) : Prop where
  ring : Ring q.links .q_stopper (ps.map .block)
  count : q.q_mcount = ps.length

section

variable {q : queue_t} {ps xs ys : List Nat} {mp : Nat}

theorem lists_qinit : Lists qinit [] := ⟨ring_alone _, rfl⟩

theorem Lists.next_stopper (h : Lists q ps) :
    q.links.next .q_stopper = some ((ps.map Node.block).headD .q_stopper) :=
  h.ring.seg.next_first

theorem Lists.prev_stopper (h : Lists q ps) :
    q.links.prev .q_stopper = some ((ps.map Node.block).getLastD .q_stopper) := by
  have hseg := h.ring.seg
  rw [← List.append_nil (ps.map Node.block)] at hseg
  exact hseg.prev_place

theorem Lists.qempty_iff (h : Lists q ps) : qempty q = true ↔ ps = [] := by
  unfold qempty
  rw [h.next_stopper]
  cases ps <;> simp

theorem Lists.qfirst_eq (h : Lists q ps) : qfirst q = ps.head?.map Node.block := by
  unfold qfirst
  rw [h.next_stopper]
  cases ps <;> simp

theorem Lists.qlast_cons (h : Lists q (ps ++ [mp])) : qlast q = some (.block mp) := by
  unfold qlast
  rw [h.prev_stopper]
  simp

/-- A link in front of the place after `xs`. -/
theorem Lists.insert (h : Lists q (xs ++ ys)) (hmp : mp ∉ xs ++ ys) :
    ∃ links, q.links.link_before ((ys.map Node.block).headD .q_stopper) (.block mp) = some links ∧
      Lists { links, q_mcount := q.q_mcount + 1 } (xs ++ mp :: ys) := by
  have hring := h.ring
  rw [List.map_append] at hring
  have hnew : Node.block mp ∉ Node.q_stopper :: (xs.map Node.block ++ ys.map Node.block) := by
    simpa using hmp
  obtain ⟨links, hlink, hring'⟩ := hring.link_before hnew
  refine ⟨links, hlink, by simpa using hring', ?_⟩
  dsimp only
  rw [h.count]
  simp only [List.length_append, List.length_cons]
  omega

theorem Lists.putq (h : Lists q ps) (hmp : mp ∉ ps) :
    ∃ q', putq q mp = .ok q' ∧ Lists q' (ps ++ [mp]) := by
  have h' : Lists q (ps ++ []) := by simpa using h
  obtain ⟨links, hlink, hlists⟩ := h'.insert (show mp ∉ ps ++ [] by simpa using hmp)
  refine ⟨_, ?_, hlists⟩
  unfold linked_queue.putq
  rw [show Node.q_stopper = (([] : List Nat).map Node.block).headD .q_stopper from rfl, hlink]
  rfl

theorem Lists.insq (h : Lists q (xs ++ ys)) (hmp : mp ∉ xs ++ ys) :
    ∃ q', insq q (some ((ys.map Node.block).headD .q_stopper)) mp = .ok q' ∧
      Lists q' (xs ++ mp :: ys) := by
  obtain ⟨links, hlink, hlists⟩ := h.insert hmp
  refine ⟨_, ?_, hlists⟩
  unfold linked_queue.insq
  dsimp only
  rw [hlink]
  rfl

theorem Lists.insq_first (h : Lists q ps) (hmp : mp ∉ ps) :
    ∃ q', linked_queue.insq q (qfirst q) mp = .ok q' ∧ Lists q' (mp :: ps) := by
  cases ps with
  | nil =>
    rw [h.qfirst_eq]
    exact h.putq hmp
  | cons p ps =>
    rw [h.qfirst_eq]
    have h' : Lists q ([] ++ p :: ps) := h
    exact h'.insq hmp

theorem Lists.remq (h : Lists q (xs ++ mp :: ys)) :
    ∃ q', remq q mp = .ok q' ∧ Lists q' (xs ++ ys) := by
  have hring := h.ring
  rw [List.map_append, List.map_cons] at hring
  obtain ⟨links, hunlink, hring'⟩ := hring.unlink
  refine ⟨{ links, q_mcount := q.q_mcount - 1 }, ?_, by simpa using hring', ?_⟩
  · unfold linked_queue.remq
    rw [hunlink]
    rfl
  · dsimp only
    rw [h.count]
    simp only [List.length_append, List.length_cons]
    omega

/-- `getq` does what `remq` would do with the first message. -/
theorem Lists.getq (h : Lists q (mp :: ps)) :
    ∃ q', getq q = .ok (some mp, q') ∧ Lists q' ps := by
  have h' : Lists q ([] ++ mp :: ps) := h
  obtain ⟨q', hremq, hlists⟩ := h'.remq
  refine ⟨q', ?_, hlists⟩
  have hprev : q.links.prev (.block mp) = some .q_stopper := h.ring.seg.2.1
  have hnext := h.next_stopper
  unfold linked_queue.getq
  rw [hnext]
  unfold linked_queue.remq Links.unlink at hremq
  rw [hprev] at hremq
  change (follow (q.links.next (.block mp)) >>= _) = _
  cases hafter : q.links.next (.block mp) with
  | none =>
    rw [hafter] at hremq
    cases hremq
  | some next =>
    rw [hafter] at hremq
    cases hremq
    rfl

theorem Lists.getq_nil (h : Lists q []) : linked_queue.getq q = .ok (none, q) := by
  unfold linked_queue.getq
  rw [h.next_stopper]
  rfl

/-! ## The walks do to the list what the list functions say -/

/-- The walk has come to the place between `xs` and `ys`. -/
theorem putq_walk_lists (msg : Nat → Message) {fuel : Nat} (h : Lists q (xs ++ ys))
    (hmp : mp ∉ xs ++ ys) (hfuel : xs.length ≤ fuel) :
    ∃ q' zs, putq_walk msg mp fuel q ((xs.map Node.block).getLastD .q_stopper) =
        .ok (q', (putq_from_last (msg mp) (xs.map msg).reverse).2) ∧ Lists q' zs ∧
      zs.map msg = (putq_from_last (msg mp) (xs.map msg).reverse).1.reverse ++ ys.map msg ∧
      ∀ p ∈ zs, p = mp ∨ p ∈ xs ++ ys := by
  induction xs using List.reverseRecOn generalizing ys fuel with
  | nil =>
    obtain ⟨q', hinsq, hlists⟩ := h.insq_first hmp
    refine ⟨q', mp :: ys, ?_, hlists, by simp [putq_from_last], by simp⟩
    unfold putq_walk
    simp only [List.map_nil, List.getLastD_nil]
    rw [hinsq]
    rfl
  | append_singleton xs x ih =>
    obtain ⟨fuel, rfl⟩ : ∃ k, fuel = k + 1 := ⟨fuel - 1, by simp at hfuel; omega⟩
    have hx : ((xs ++ [x]).map Node.block).getLastD .q_stopper = .block x := by simp
    have hrev : ((xs ++ [x]).map msg).reverse = msg x :: (xs.map msg).reverse := by simp
    rw [hx, hrev]
    unfold putq_walk putq_from_last
    by_cases hsame : (msg mp).rtp.seq_number = (msg x).rtp.seq_number
    · simp only [if_pos hsame]
      exact ⟨q, _, rfl, h, by simp, fun p hp => .inr hp⟩
    · simp only [if_neg hsame]
      by_cases hgreater : RTP_SEQ_IS_GREATER (msg mp).rtp.seq_number (msg x).rtp.seq_number = true
      · simp only [if_pos hgreater]
        have hseg := h.ring.seg
        rw [List.map_append] at hseg
        have hnext := hseg.next_place
        rw [hx] at hnext
        obtain ⟨q', hinsq, hlists⟩ := h.insq hmp
        refine ⟨q', _, ?_, hlists, by simp, fun p hp => ?_⟩
        · rw [hnext]
          change (linked_queue.insq q _ mp >>= _) = _
          rw [hinsq]
          rfl
        · simp only [List.mem_append, List.mem_cons] at hp ⊢
          tauto
      · simp only [if_neg hgreater]
        rw [List.append_assoc] at h hmp
        have hseg := h.ring.seg
        rw [List.map_append] at hseg
        have hprev := hseg.prev_place
        obtain ⟨q', zs, hwalk, hlists, hmap, hmem⟩ := ih h hmp (by simp at hfuel; omega)
        refine ⟨q', zs, ?_, hlists, ?_, fun p hp => ?_⟩
        · simp only [List.singleton_append, List.map_cons, List.headD_cons] at hprev
          rw [hprev]
          exact hwalk
        · simpa using hmap
        · rw [List.append_assoc]
          exact hmem p hp

theorem rtp_putq_lists (msg : Nat → Message) (h : Lists q ps) (hmp : mp ∉ ps) :
    ∃ q' zs, rtp_putq msg q mp =
        .ok (q', (putq_from_last (msg mp) (ps.map msg).reverse).2) ∧ Lists q' zs ∧
      zs.map msg = (rtp_session.rtp_putq (ps.map msg) (msg mp)).1 ∧ ∀ p ∈ zs, p = mp ∨ p ∈ ps := by
  unfold rtp_putq
  induction ps using List.reverseRecOn with
  | nil =>
    obtain ⟨q', hputq, hlists⟩ := h.putq hmp
    refine ⟨q', [mp], ?_, hlists, by simp [rtp_session.rtp_putq, putq_from_last], by simp⟩
    rw [if_pos (h.qempty_iff.mpr rfl), hputq]
    rfl
  | append_singleton ps p _ =>
    have hne : ¬ qempty q = true := fun he => by
      have := h.qempty_iff.mp he
      simp at this
    have h' : Lists q ((ps ++ [p]) ++ []) := by simpa using h
    obtain ⟨q', zs, hwalk, hlists, hmap, hmem⟩ := putq_walk_lists msg h' (by simpa using hmp)
      (show (ps ++ [p]).length ≤ q.q_mcount.toNat by rw [h.count]; simp)
    refine ⟨q', zs, ?_, hlists, ?_, by simpa using hmem⟩
    · rw [if_neg hne, h.qlast_cons]
      change putq_walk msg mp q.q_mcount.toNat q (.block p) = _
      simpa using hwalk
    · simpa [rtp_session.rtp_putq] using hmap

theorem discard_walk_lists (msg : Nat → Message) (maxrqsz : Int) {fuel : Nat} (h : Lists q ps)
    (hfuel : ps.length ≤ fuel) :
    match discard_oldest maxrqsz (ps.map msg) with
    | .error e => discard_walk maxrqsz fuel q = .error e
    | .ok r => ∃ q' zs gone, discard_walk maxrqsz fuel q = .ok (q', gone) ∧ Lists q' zs ∧
        zs.map msg = r.1 ∧ (gone.map fun p => (msg p, Fate.pushed_out)) = r.2 ∧ ∀ p ∈ zs, p ∈ ps := by
  induction ps generalizing q fuel with
  | nil =>
    have hcount : q.q_mcount = 0 := h.count
    by_cases hneg : maxrqsz < 0
    · simp only [List.map_nil, discard_oldest, if_pos hneg]
      cases fuel with
      | zero => simp [discard_walk, hcount, hneg]
      | succ fuel =>
        simp only [discard_walk, hcount, if_pos hneg]
        rw [h.getq_nil]
        rfl
    · simp only [List.map_nil, discard_oldest, if_neg hneg]
      refine ⟨q, [], [], ?_, h, rfl, rfl, fun p hp => hp⟩
      cases fuel <;> simp [discard_walk, hcount, hneg]
  | cons p ps ih =>
    obtain ⟨fuel, rfl⟩ : ∃ k, fuel = k + 1 := ⟨fuel - 1, by simp at hfuel; omega⟩
    have hcount : q.q_mcount = ps.length + 1 := by simpa using h.count
    by_cases hover : maxrqsz < ps.length + 1
    · obtain ⟨q₁, hgetq, hlists₁⟩ := h.getq
      have hrest := ih hlists₁ (Nat.le_of_succ_le_succ hfuel)
      have hlist : discard_oldest maxrqsz ((p :: ps).map msg) =
          (discard_oldest maxrqsz (ps.map msg) >>= fun r =>
            .ok (r.1, (msg p, Fate.pushed_out) :: r.2)) := by
        simp only [List.map_cons, discard_oldest, List.length_map, if_pos hover]
        rfl
      have hwalk : discard_walk maxrqsz (fuel + 1) q =
          (discard_walk maxrqsz fuel q₁ >>= fun r => .ok (r.1, p :: r.2)) := by
        simp only [discard_walk, hcount, if_pos hover]
        rw [hgetq]
        rfl
      rw [hlist, hwalk]
      cases hd : discard_oldest maxrqsz (ps.map msg) with
      | error e =>
        rw [hd] at hrest
        dsimp only at hrest
        rw [hrest]
        rfl
      | ok r =>
        rw [hd] at hrest
        obtain ⟨q', zs, gone, hgone, hlists, hzs, hfates, hmem⟩ := hrest
        rw [hgone]
        exact ⟨q', zs, p :: gone, rfl, hlists, hzs, by simp [hfates],
          fun r hr => List.mem_cons_of_mem p (hmem r hr)⟩
    · simp only [List.map_cons, discard_oldest, List.length_map, if_neg hover]
      refine ⟨q, p :: ps, [], ?_, h, by simp, rfl, fun r hr => hr⟩
      simp [discard_walk, hcount, hover]

theorem getq_walk_lists (msg : Nat → Message) (timestamp : UInt32) {fuel : Nat} (h : Lists q ps)
    (hfuel : ps.length ≤ fuel) (ret : Option Nat) :
    ∃ got q' zs gone, getq_walk msg timestamp fuel q ret = .ok (got, q', gone) ∧ Lists q' zs ∧
      rtp_session.getq_loop timestamp (ret.map msg) (ps.map msg) =
        (got.map msg, zs.map msg, gone.map fun p => (msg p, Fate.rejected)) ∧
      ∀ p ∈ zs, p ∈ ps := by
  induction ps generalizing q fuel ret with
  | nil =>
    refine ⟨ret, q, [], [], ?_, h, by simp [rtp_session.getq_loop], fun p hp => hp⟩
    unfold getq_walk
    rw [h.qfirst_eq]
    rfl
  | cons p ps ih =>
    obtain ⟨fuel, rfl⟩ : ∃ k, fuel = k + 1 := ⟨fuel - 1, by simp at hfuel; omega⟩
    have hfirst : qfirst q = some (.block p) := by rw [h.qfirst_eq]; rfl
    obtain ⟨q₁, hgetq, hlists₁⟩ := h.getq
    unfold getq_walk
    rw [hfirst]
    dsimp only
    by_cases hnewer : RTP_TIMESTAMP_IS_NEWER_THAN timestamp (msg p).rtp.timestamp = true
    · rw [if_pos hnewer]
      cases ret with
      | none =>
        obtain ⟨got, q', zs, gone, hwalk, hlists, hloop, hmem⟩ :=
          ih hlists₁ (Nat.le_of_succ_le_succ hfuel) (some p)
        refine ⟨got, q', zs, gone, ?_, hlists, ?_, fun r hr => List.mem_cons_of_mem p (hmem r hr)⟩
        · simp only [Option.any_none, Bool.false_eq_true, if_false]
          rw [hgetq, ok_bind]
          dsimp only
          rw [hwalk]
          rfl
        · simp only [Option.map_none, List.map_cons, rtp_session.getq_loop, if_pos hnewer]
          exact hloop
      | some old =>
        by_cases hsame : (msg p).rtp.timestamp = (msg old).rtp.timestamp
        · refine ⟨some old, q, p :: ps, [], by simp [hsame], h, ?_, fun r hr => hr⟩
          simp [rtp_session.getq_loop, hsame]
        · obtain ⟨got, q', zs, gone, hwalk, hlists, hloop, hmem⟩ :=
            ih hlists₁ (Nat.le_of_succ_le_succ hfuel) (some p)
          refine ⟨got, q', zs, old :: gone, ?_, hlists, ?_,
            fun r hr => List.mem_cons_of_mem p (hmem r hr)⟩
          · simp only [Option.any_some, decide_eq_true_eq, if_neg hsame]
            rw [hgetq, ok_bind]
            dsimp only
            rw [hwalk]
            rfl
          · simp only [Option.map_some, List.map_cons, rtp_session.getq_loop, if_pos hnewer,
              if_neg hsame] at hloop ⊢
            rw [hloop]
    · rw [if_neg hnewer]
      refine ⟨ret, q, p :: ps, [], rfl, h, ?_, fun r hr => hr⟩
      simp [rtp_session.getq_loop, hnewer]

theorem rtp_getq_lists (msg : Nat → Message) (timestamp : UInt32) (h : Lists q ps) :
    ∃ got q' zs gone, rtp_getq msg q timestamp = .ok (got, q', gone) ∧ Lists q' zs ∧
      rtp_session.rtp_getq (ps.map msg) timestamp =
        (got.map msg, zs.map msg, gone.map fun p => (msg p, Fate.rejected)) ∧
      ∀ p ∈ zs, p ∈ ps := by
  unfold rtp_getq
  by_cases hempty : ps = []
  · subst hempty
    rw [if_pos (h.qempty_iff.mpr rfl)]
    exact ⟨none, q, [], [], rfl, h, rfl, fun p hp => hp⟩
  · rw [if_neg (mt h.qempty_iff.mp hempty)]
    exact getq_walk_lists msg timestamp h (by rw [h.count]; simp) none

theorem rtp_getq_permissive_lists (msg : Nat → Message) (timestamp : UInt32) (h : Lists q ps) :
    ∃ got q' zs, rtp_getq_permissive msg q timestamp = .ok (got, q') ∧ Lists q' zs ∧
      rtp_session.rtp_getq_permissive (ps.map msg) timestamp = (got.map msg, zs.map msg, []) ∧
      ∀ p ∈ zs, p ∈ ps := by
  unfold rtp_getq_permissive
  cases ps with
  | nil =>
    rw [if_pos (h.qempty_iff.mpr rfl)]
    exact ⟨none, q, [], rfl, h, rfl, fun p hp => hp⟩
  | cons p ps =>
    obtain ⟨q', hgetq, hlists⟩ := h.getq
    rw [if_neg (mt h.qempty_iff.mp (List.cons_ne_nil p ps)), h.qfirst_eq]
    simp only [List.head?_cons, Option.map_some, List.map_cons, rtp_session.rtp_getq_permissive]
    by_cases hnewer : RTP_TIMESTAMP_IS_NEWER_THAN timestamp (msg p).rtp.timestamp = true
    · rw [if_pos hnewer, if_pos hnewer]
      exact ⟨some p, q', ps, hgetq, hlists, rfl, fun r hr => List.mem_cons_of_mem p hr⟩
    · rw [if_neg hnewer, if_neg hnewer]
      exact ⟨none, q, p :: ps, rfl, h, rfl, fun r hr => hr⟩

end

/-! ## Every run of the receive queue -/

/-- What the session does with its queue. -/
inductive Act
  | queue_packet (maxrqsz : Int) (mp : Message)
  | rtp_getq (timestamp : UInt32)
  | rtp_getq_permissive (timestamp : UInt32)
  | getq

/-- `msg` are the blocks that were given out, below `fresh`. -/
structure Linked where
  q : queue_t
  msg : Nat → Message
  fresh : Nat
  fates : Fates

def linked_init : Linked where
  q := qinit
  msg := fun _ => ⟨⟨2, false, 0, false, 0, 0, 0, 0⟩, []⟩
  fresh := 0
  fates := []

/-- A message that the session takes out, if it gets one. -/
def Linked.take (s : Linked) (got : Option Nat) (q : queue_t) (gone : Fates) : Linked :=
  { s with q, fates := s.fates ++ gone ++ (got.toList.map fun p => (s.msg p, Fate.delivered)) }

def linked_step (s : Linked) : Act → Except Fault Linked
  | .queue_packet maxrqsz mp =>
    if mp.data.length = 4 * mp.rtp.cc then .ok { s with fates := s.fates ++ [(mp, .no_data)] }
    else do
      let s := { s with msg := Function.update s.msg s.fresh mp, fresh := s.fresh + 1 }
      let (q, new) ← rtp_putq s.msg s.q (s.fresh - 1)
      let (q, gone) ← discard_walk maxrqsz q.q_mcount.toNat q
      .ok { s with
        q
        fates := s.fates ++ ((if new then [] else [(mp, .duplicate)]) ++
          gone.map fun p => (s.msg p, Fate.pushed_out)) }
  | .rtp_getq timestamp => do
    let (got, q, gone) ← rtp_getq s.msg s.q timestamp
    .ok (s.take got q (gone.map fun p => (s.msg p, Fate.rejected)))
  | .rtp_getq_permissive timestamp => do
    let (got, q) ← rtp_getq_permissive s.msg s.q timestamp
    .ok (s.take got q [])
  | .getq => do
    let (got, q) ← getq s.q
    .ok (s.take got q [])

/-- The same work on a list. -/
structure Listed where
  q : List Message
  fates : Fates

def Listed.take (s : Listed) (r : Option Message × List Message × Fates) : Listed where
  q := r.2.1
  fates := s.fates ++ r.2.2 ++ (r.1.toList.map fun mp => (mp, Fate.delivered))

def listed_step (s : Listed) : Act → Except Fault Listed
  | .queue_packet maxrqsz mp => do
    let r ← rtp_session.queue_packet s.q maxrqsz mp
    .ok { q := r.q, fates := s.fates ++ r.freed }
  | .rtp_getq timestamp => .ok (s.take (rtp_session.rtp_getq s.q timestamp))
  | .rtp_getq_permissive timestamp => .ok (s.take (rtp_session.rtp_getq_permissive s.q timestamp))
  | .getq => .ok (s.take (rtp_session.getq s.q))

/-- The messages from the stopper on, along `b_next`. -/
def messages (s : Linked) : Nat → Node → List Message
  | 0, _ => []
  | fuel + 1, node => match s.q.links.next node with
    | some (.block p) => s.msg p :: messages s fuel (.block p)
    | _ => []

/-- The linked queue is the list, and has used no block that is still to come. -/
structure Shows (s : Linked) (l : Listed) (ps : List Nat) : Prop where
  lists : Lists s.q ps
  below : ∀ p ∈ ps, p < s.fresh
  q : l.q = ps.map s.msg
  fates : l.fates = s.fates

section

variable {s : Linked} {l : Listed} {ps : List Nat}

theorem Shows.take (h : Shows s l ps) (got : Option Nat) {q : queue_t} {zs : List Nat}
    {gone : Fates} {r : Option Message × List Message × Fates} (hlists : Lists q zs)
    (hr : r = (got.map s.msg, zs.map s.msg, gone)) (hmem : ∀ p ∈ zs, p ∈ ps) :
    Shows (s.take got q gone) (l.take r) zs := by
  subst hr
  refine ⟨hlists, fun p hp => h.below p (hmem p hp), rfl, ?_⟩
  simp only [Linked.take, Listed.take, h.fates]
  cases got <;> rfl

theorem queue_packet_shows (h : Shows s l ps) (maxrqsz : Int) (mp : Message) :
    match listed_step l (.queue_packet maxrqsz mp) with
    | .error e => linked_step s (.queue_packet maxrqsz mp) = .error e
    | .ok l' => ∃ s' zs, linked_step s (.queue_packet maxrqsz mp) = .ok s' ∧ Shows s' l' zs := by
  unfold listed_step linked_step rtp_session.queue_packet
  dsimp only
  by_cases hdata : mp.data.length = 4 * mp.rtp.cc
  · rw [if_pos hdata, if_pos hdata]
    exact ⟨_, ps, rfl, h.lists, h.below, h.q, by simp [h.fates]⟩
  · rw [if_neg hdata, if_neg hdata]
    have hnew : s.fresh ∉ ps := fun hmem => Nat.lt_irrefl _ (h.below _ hmem)
    have hold : ps.map (Function.update s.msg s.fresh mp) = ps.map s.msg :=
      List.map_congr_left fun p hp =>
        Function.update_of_ne (Nat.ne_of_lt (h.below p hp)) mp s.msg
    generalize hmsg : Function.update s.msg s.fresh mp = msg at hold
    have hmp : msg s.fresh = mp := by rw [← hmsg]; exact Function.update_self ..
    obtain ⟨q₁, zs, hput, hlists₁, hmap, hmem⟩ := rtp_putq_lists msg h.lists hnew
    rw [hold, hmp, ← h.q] at hput hmap
    have hdiscard := discard_walk_lists msg maxrqsz hlists₁
      (show zs.length ≤ q₁.q_mcount.toNat by rw [hlists₁.count]; simp)
    rw [hmap] at hdiscard
    simp only [Nat.add_sub_cancel]
    rw [hput, ok_bind]
    dsimp only
    cases hd : discard_oldest maxrqsz (rtp_session.rtp_putq l.q mp).1 with
    | error e =>
      rw [hd] at hdiscard
      dsimp only at hdiscard
      rw [hdiscard]
      rfl
    | ok r =>
      rw [hd] at hdiscard
      obtain ⟨q', zs', gone, hwalk, hlists', hzs, hfates, hsub⟩ := hdiscard
      rw [hwalk]
      refine ⟨_, zs', rfl, hlists', fun p hp => ?_, hzs.symm, ?_⟩
      · rcases hmem p (hsub p hp) with rfl | hp
        · exact Nat.lt_succ_self _
        · exact Nat.lt_succ_of_lt (h.below p hp)
      · simp only [h.fates, hfates, rtp_session.rtp_putq]

theorem step_shows (h : Shows s l ps) (a : Act) :
    match listed_step l a with
    | .error e => linked_step s a = .error e
    | .ok l' => ∃ s' zs, linked_step s a = .ok s' ∧ Shows s' l' zs := by
  cases a with
  | queue_packet maxrqsz mp => exact queue_packet_shows h maxrqsz mp
  | rtp_getq timestamp =>
    obtain ⟨got, q', zs, gone, hgetq, hlists, hlist, hmem⟩ :=
      rtp_getq_lists s.msg timestamp h.lists
    refine ⟨_, zs, ?_, h.take _ hlists (by rw [h.q]; exact hlist) hmem⟩
    unfold linked_step
    dsimp only
    rw [hgetq, ok_bind]
  | rtp_getq_permissive timestamp =>
    obtain ⟨got, q', zs, hgetq, hlists, hlist, hmem⟩ :=
      rtp_getq_permissive_lists s.msg timestamp h.lists
    refine ⟨_, zs, ?_, h.take _ hlists (by rw [h.q]; exact hlist) hmem⟩
    unfold linked_step
    dsimp only
    rw [hgetq, ok_bind]
  | getq =>
    cases ps with
    | nil =>
      refine ⟨_, [], ?_, h.take none h.lists (by rw [h.q]; rfl) fun p hp => hp⟩
      unfold linked_step
      dsimp only
      rw [h.lists.getq_nil, ok_bind]
    | cons p ps =>
      obtain ⟨q', hgetq, hlists⟩ := h.lists.getq
      refine ⟨_, ps, ?_, h.take (some p) hlists (by rw [h.q]; rfl)
        fun r hr => List.mem_cons_of_mem p hr⟩
      unfold linked_step
      dsimp only
      rw [hgetq, ok_bind]

theorem messages_seg {a : Node} (h : Seg s.q.links a (ps.map .block) .q_stopper) :
    messages s (ps.length + 1) a = ps.map s.msg := by
  induction ps generalizing a with
  | nil =>
    unfold messages
    rw [h.1]
    rfl
  | cons p ps ih =>
    unfold messages
    rw [h.1]
    dsimp only
    rw [List.length_cons, ih h.2.2, List.map_cons]

theorem run_shows (h : Shows s l ps) (acts : List Act) :
    match run listed_step l acts with
    | .error e => run linked_step s acts = .error e
    | .ok l' => ∃ s' zs, run linked_step s acts = .ok s' ∧ Shows s' l' zs := by
  induction acts generalizing s l ps with
  | nil => exact ⟨s, ps, rfl, h⟩
  | cons a acts ih =>
    have hstep := step_shows h a
    cases hl : listed_step l a with
    | error e =>
      rw [hl] at hstep
      dsimp only at hstep
      simp only [run, hl, hstep]
    | ok l' =>
      rw [hl] at hstep
      obtain ⟨s', zs, hs, hshows⟩ := hstep
      simp only [run, hl, hs]
      exact ih hshows

end

/-- Whatever the session does with its queue: the walks along the links follow no link that is
NULL, and give each message the fate, and the queue the messages in the order, that the work on a
list gives. They hang exactly where the work on a list hangs. -/
theorem the_linked_queue_is_a_list (acts : List Act) :
    match run listed_step ⟨[], []⟩ acts with
    | .error e => run linked_step linked_init acts = .error e
    | .ok l => ∃ s, run linked_step linked_init acts = .ok s ∧ s.fates = l.fates ∧
        s.q.q_mcount = l.q.length ∧ messages s (l.q.length + 1) .q_stopper = l.q := by
  have hinit : Shows linked_init ⟨[], []⟩ [] :=
    ⟨lists_qinit, fun p hp => absurd hp List.not_mem_nil, rfl, rfl⟩
  have hrun := run_shows hinit acts
  cases hl : run listed_step ⟨[], []⟩ acts with
  | error e =>
    rw [hl] at hrun
    exact hrun
  | ok l =>
    rw [hl] at hrun
    obtain ⟨s, ps, hs, hshows⟩ := hrun
    refine ⟨s, hs, hshows.fates.symm, ?_, ?_⟩
    · rw [hshows.lists.count, hshows.q, List.length_map]
    · rw [hshows.q, List.length_map]
      exact messages_seg hshows.lists.ring.seg

end zonekey_mcu.linked_queue
