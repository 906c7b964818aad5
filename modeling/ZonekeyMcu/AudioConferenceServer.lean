-- The members of the audio conference server. The map is keyed by a record that also holds the
-- stream and the endpoint of the member, and only the address and the port order the keys.
import ZonekeyMcu.Fault
import ZonekeyMcu.Members
import ZonekeyMcu.Lib.Runs

open zonekey_mcu.members runs

namespace zonekey_mcu.audio_conference_server

/-! ## The conference -/

structure Who where
  ip : String
  port : Int
  pt : Int
  local_port : Int
  as : Ptr
  ae : Ptr
  deriving DecidableEq, Repr

/-- Neither of two records comes before the other in the order of the map. -/
def Who.same (a b : Who) : Bool := a.ip = b.ip && a.port = b.port

abbrev STREAMS := List (Who × Ptr)

/-- `streams_.find(who)`. -/
def STREAMS.get (streams : STREAMS) (who : Who) : Option (Who × Ptr) :=
  List.find? (fun kv => kv.1.same who) streams

/-- `streams_[who] = as`. A key that is there stays as it is. -/
def STREAMS.put (who : Who) (as : Ptr) : STREAMS → STREAMS
  | [] => [(who, as)]
  | kv :: streams =>
    if kv.1.same who then (kv.1, as) :: streams else kv :: STREAMS.put who as streams

/-- `removed`, `released` and `stopped` are the arguments of the three functions that end a
member, over all calls. `returned` are the results of `delMember`. The other fields are what the
history of the calls says: the stream that the latest addition of each address started, unless
a call has removed it, the results that are due, the streams that successful removals should
have stopped, and whether each removal of an absent member left everything as it was. -/
structure Conference where
  port : Int
  next : Ptr
  streams_ : STREAMS
  removed : List Ptr
  released : List Ptr
  stopped : List Ptr
  returned : List Int
  latest : String × Int → Option Ptr
  due : List Int
  due_stops : List Ptr
  quiet : Bool

def Conference.new : Conference where
  port := 35000
  next := 0
  streams_ := []
  removed := []
  released := []
  stopped := []
  returned := []
  latest _ := none
  due := []
  due_stops := []
  quiet := true

/-- The tries of `addMember`. `rc i` is the result of the start of a stream in try `i`. -/
def Conference.add_tries (ip : String) (port pt : Int) (rc : Nat → Int) :
    List Nat → Conference → Int × Conference
  | [], c => (-1, c)
  | i :: is, c =>
    let local_port := c.port + 2
    let as := c.next
    if rc i = 0 then
      let ae := c.next + 1
      let who : Who :=
        { ip := ip, port := port, pt := pt, local_port := local_port, as := as, ae := ae }
      (local_port, { c with
        port := local_port
        next := c.next + 2
        streams_ := STREAMS.put who as c.streams_
        latest := Function.update c.latest (ip, port) (some as) })
    else
      Conference.add_tries ip port pt rc is { c with
        port := local_port
        next := c.next + 1
        stopped := as :: c.stopped }

def Conference.addMember (c : Conference) (ip : String) (port pt : Int) (rc : Nat → Int) :
    Int × Conference := c.add_tries ip port pt rc (List.range 10)

/-- The entry of the map stays. -/
def Conference.delMember (c : Conference) (ip : String) (port pt : Int) : Int × Conference :=
  let who : Who := { ip := ip, port := port, pt := pt, local_port := 0, as := 0, ae := 0 }
  match c.streams_.get who with
  | some itf => (0, { c with
      removed := itf.1.ae :: c.removed
      released := itf.1.ae :: c.released
      stopped := itf.1.as :: c.stopped })
  | none => (-1, c)

/-- What `delMember` leaves as it was. -/
def Conference.view (c : Conference) : STREAMS × List Ptr × List Ptr × List Ptr :=
  (c.streams_, c.removed, c.released, c.stopped)

/-- The call of `delMember`, with what the history says of it. -/
def Conference.remove (c : Conference) (ip : String) (port pt : Int) : Conference :=
  let (rc, c') := c.delMember ip port pt
  { c' with
    returned := c.returned ++ [rc]
    latest := Function.update c.latest (ip, port) none
    due := c.due ++ [if c.latest (ip, port) = none then -1 else 0]
    due_stops := (c.latest (ip, port)).toList ++ c.due_stops
    quiet := c.quiet && (c.latest (ip, port) ≠ none || c'.view = c.view) }

inductive Call
  | addMember (ip : String) (port pt : Int) (rc : Nat → Int)
  | delMember (ip : String) (port pt : Int)

def step (c : Conference) : Call → Except Fault Conference
  | .addMember ip port pt rc => .ok (c.addMember ip port pt rc).2
  | .delMember ip port pt => .ok (c.remove ip port pt)

/-! ## The property -/

/-- The key that `delMember` looks for. -/
def key (ip : String) (port : Int) : Who :=
  { ip := ip, port := port, pt := 0, local_port := 0, as := 0, ae := 0 }

structure Accounted (c : Conference) : Prop where
  removed_once : c.removed.Nodup
  released_once : c.released.Nodup
  stopped_once : c.stopped.Nodup
  latest_stopped : ∀ as ∈ c.due_stops, as ∈ c.stopped
  members : ∀ ip port, c.streams_.get (key ip port) = none ↔ c.latest (ip, port) = none
  results : c.returned = c.due
  quiet : c.quiet = true

/-- No member is removed that is there. -/
def Spared (c : Conference) : Call → Prop
  | .addMember _ _ _ _ => True
  | .delMember ip port _ => c.latest (ip, port) = none

/-! ## The map -/

section

variable {streams : STREAMS} {who who' : Who} {c c' : Conference}

theorem same_iff (a b : Who) : a.same b = true ↔ (a.ip, a.port) = (b.ip, b.port) := by
  simp [Who.same]

/-- Only the address and the port of a key are looked at. -/
theorem get_congr (streams : STREAMS) (h : (who.ip, who.port) = (who'.ip, who'.port)) :
    streams.get who = streams.get who' := by
  have hfun : (fun kv : Who × Ptr => kv.1.same who) = fun kv => kv.1.same who' := by
    funext kv
    rw [Bool.eq_iff_iff, same_iff, same_iff, h]
  simp only [STREAMS.get, hfun]

theorem get_key (streams : STREAMS) {ip : String} {port : Int} (pt local_port : Int)
    (as ae : Ptr) : streams.get (key ip port) =
      streams.get { ip := ip, port := port, pt := pt, local_port := local_port
                    as := as, ae := ae } := get_congr streams rfl

theorem get_put_self (streams : STREAMS) (who : Who) (as : Ptr) :
    (STREAMS.put who as streams).get who ≠ none := by
  induction streams with
  | nil => simp [STREAMS.put, STREAMS.get, Who.same]
  | cons kv streams ih =>
    unfold STREAMS.put
    split
    · rename_i hkv
      simp [STREAMS.get, hkv]
    · rename_i hkv
      simpa [STREAMS.get, hkv] using ih

theorem get_put_ne (streams : STREAMS) (as : Ptr)
    (h : (who'.ip, who'.port) ≠ (who.ip, who.port)) :
    (STREAMS.put who as streams).get who' = none ↔ streams.get who' = none := by
  have hne : ∀ kv : Who × Ptr, kv.1.same who = true → ¬ kv.1.same who' = true := by
    intro kv hkv hkv'
    rw [same_iff] at hkv hkv'
    exact h (hkv'.symm.trans hkv)
  induction streams with
  | nil =>
    have hself : who.same who' = false := by
      simpa using hne (who, as) ((same_iff who who).mpr rfl)
    simp [STREAMS.put, STREAMS.get, hself]
  | cons kv streams ih =>
    unfold STREAMS.put
    split
    · rename_i hkv
      have := hne kv hkv
      simp [STREAMS.get, this]
    · cases hkv' : kv.1.same who' with
      | true => simp [STREAMS.get, hkv']
      | false => simpa [STREAMS.get, hkv'] using ih

/-! ## A new member -/

/-- What is so before any member is removed. -/
structure Inv (c : Conference) : Prop where
  removed : c.removed = []
  released : c.released = []
  stopped_once : c.stopped.Nodup
  stopped_old : ∀ as ∈ c.stopped, as < c.next
  due_stops : c.due_stops = []
  members : ∀ ip port, c.streams_.get (key ip port) = none ↔ c.latest (ip, port) = none
  results : c.returned = c.due
  quiet : c.quiet = true

theorem Inv.accounted (h : Inv c) : Accounted c where
  removed_once := by
    rw [h.removed]
    exact List.nodup_nil
  released_once := by
    rw [h.released]
    exact List.nodup_nil
  stopped_once := h.stopped_once
  latest_stopped as has := by
    rw [h.due_stops] at has
    exact absurd has List.not_mem_nil
  members := h.members
  results := h.results
  quiet := h.quiet

theorem Inv.add_tries (h : Inv c) (ip : String) (port pt : Int) (rc : Nat → Int)
    (is : List Nat) : Inv (c.add_tries ip port pt rc is).2 := by
  induction is generalizing c with
  | nil => exact h
  | cons i is ih =>
    unfold Conference.add_tries
    dsimp only
    split
    · refine { h with stopped_old := fun as has => ?_, members := fun ip' port' => ?_ }
      · exact Nat.lt_of_lt_of_le (h.stopped_old as has) (Nat.le_add_right _ _)
      · dsimp only
        by_cases heq : (ip', port') = (ip, port)
        · cases heq
          simp only [Function.update_self, reduceCtorEq, iff_false]
          rw [get_key _ pt (c.port + 2) c.next (c.next + 1)]
          exact get_put_self _ _ _
        · rw [Function.update_of_ne heq, ← h.members ip' port']
          exact get_put_ne _ _ heq
    · refine ih { h with stopped_once := ?_, stopped_old := fun as has => ?_ }
      · refine List.nodup_cons.mpr ⟨fun hmem => ?_, h.stopped_once⟩
        exact Nat.lt_irrefl _ (h.stopped_old _ hmem)
      · rcases List.mem_cons.mp has with rfl | has
        · exact Nat.lt_succ_self _
        · exact Nat.lt_succ_of_lt (h.stopped_old as has)

/-! ## A removal -/

/-- The removal of an absent member fails and changes nothing. -/
theorem delMember_absent (ip : String) (port pt : Int)
    (h : c.streams_.get (key ip port) = none) : c.delMember ip port pt = (-1, c) := by
  rw [get_key _ pt 0 0 0] at h
  unfold Conference.delMember
  dsimp only
  rw [h]

/-- A removal leaves the map as it was. -/
theorem delMember_streams (c : Conference) (ip : String) (port pt : Int) :
    (c.delMember ip port pt).2.streams_ = c.streams_ := by
  unfold Conference.delMember
  dsimp only
  split
  · rfl
  · rfl

theorem Inv.remove_absent (h : Inv c) {ip : String} {port : Int} (pt : Int)
    (hnone : c.latest (ip, port) = none) : Inv (c.remove ip port pt) := by
  have hdel := delMember_absent ip port pt ((h.members ip port).mpr hnone)
  have hsame : Function.update c.latest (ip, port) none = c.latest := by
    rw [← hnone]
    exact Function.update_eq_self _ _
  unfold Conference.remove
  rw [hdel]
  refine { h with due_stops := ?_, members := ?_, results := ?_, quiet := ?_ }
  · simp [hnone, h.due_stops]
  · dsimp only
    rw [hsame]
    exact h.members
  · simp [hnone, h.results]
  · simp [h.quiet]

theorem spared_keeps {call : Call} (h : Inv c) (hc : Spared c call) :
    ∃ c', step c call = .ok c' ∧ Inv c' := by
  cases call with
  | addMember ip port pt rc => exact ⟨_, rfl, h.add_tries ip port pt rc _⟩
  | delMember ip port pt => exact ⟨_, rfl, h.remove_absent pt hc⟩

/-- A member that is removed is still in the map. -/
theorem accounted_was_spared {call : Call} (h : Inv c) (hstep : step c call = .ok c')
    (hacc : Accounted c') : Spared c call := by
  cases call with
  | addMember ip port pt rc => trivial
  | delMember ip port pt =>
    cases hstep
    have hgone : (c.remove ip port pt).latest (ip, port) = none := Function.update_self _ _ _
    have hget := (hacc.members ip port).mpr hgone
    have hkept : (c.remove ip port pt).streams_ = c.streams_ := delMember_streams c ip port pt
    rw [hkept] at hget
    exact (h.members ip port).mp hget

end

theorem new_inv : Inv Conference.new where
  removed := rfl
  released := rfl
  stopped_once := List.nodup_nil
  stopped_old _ has := absurd has List.not_mem_nil
  due_stops := rfl
  members _ _ := ⟨fun _ => rfl, fun _ => rfl⟩
  results := rfl
  quiet := rfl

/-! ## The law -/

/-- The members are accounted for exactly while no member is removed that is there. -/
theorem the_members_are_accounted_for_until_one_is_removed (calls : List Call) :
    Along step Accounted Conference.new calls ↔ Meets step Spared Conference.new calls :=
  along_iff_meets (I := Inv) (fun _ h => h.accounted) (fun _ _ h => spared_keeps h)
    (fun _ _ _ h hstep hacc => accounted_was_spared h hstep hacc) calls new_inv

/-- Each start of a stream goes well. -/
def started (_ : Nat) : Int := 0

/-- One member that is removed twice is stopped twice. Of two additions of one address, the
stream of the first is stopped and the second one goes on. -/
theorem a_member_is_stopped_twice_or_the_wrong_one :
    (run step Conference.new [.addMember "10.0.0.1" 5004 111 started,
        .delMember "10.0.0.1" 5004 111, .delMember "10.0.0.1" 5004 111]).map
          (fun c => (c.stopped, c.returned, c.due)) = .ok ([0, 0], [0, 0], [0, -1]) ∧
      (run step Conference.new [.addMember "10.0.0.1" 5004 111 started,
        .addMember "10.0.0.1" 5004 111 started, .delMember "10.0.0.1" 5004 111]).map
          (fun c => (c.stopped, c.due_stops)) = .ok ([0], [2]) ∧
      ¬ ∀ calls : List Call, Along step Accounted Conference.new calls := by
  refine ⟨rfl, rfl, fun hall => ?_⟩
  have hacc := along_end (hall [.addMember "10.0.0.1" 5004 111 started,
    .delMember "10.0.0.1" 5004 111, .delMember "10.0.0.1" 5004 111]) rfl
  exact absurd hacc.stopped_once (by decide)

end zonekey_mcu.audio_conference_server
