-- The conferences of the server, and the members of a conference. Both are lists of counted
-- objects. A conference id is taken from a counter that starts again after its maximum, and a
-- removal reads the list node that it erased.
import ZonekeyMcu.Fault
import ZonekeyMcu.Lib.CyclicIds
import ZonekeyMcu.Lib.RefCounts
import ZonekeyMcu.Lib.Runs

open returns runs ref_counts cyclic_ids

namespace zonekey_mcu.mcu_server

/-! ## The objects -/

structure Member where
  conf_id_ : Int
  member_id_ : Int

structure Conference where
  conf_id_ : Int
  next_memeber_id_ : Int
  members_ : Registry Member

structure Server where
  conferences_ : Registry Conference
  next_conf_id_ : Int

def Member.new (confid memid : Int) : Member := { conf_id_ := confid, member_id_ := memid }

def Conference.new (conf_id : Int) : Conference where
  conf_id_ := conf_id
  next_memeber_id_ := 0
  members_ := .empty (.new 0 0)

def Server.new : Server := { conferences_ := .empty (.new 0), next_conf_id_ := 0 }

/-! ## The members of a conference -/

/-- `i + 1` of an `int`. After the largest comes the smallest. -/
def int_succ (i : Int) : Int := if i = 2147483647 then -2147483648 else i + 1

def Conference.next_id (c : Conference) : Int × Conference :=
  (c.next_memeber_id_, { c with next_memeber_id_ := int_succ c.next_memeber_id_ })

def Conference.member_create (c : Conference) : Int × Conference :=
  let (id, c) := c.next_id
  (id, { c with members_ := c.members_.push (.new c.conf_id_ id) })

/-- `stale` is the pointer in the erased node when `(*it)->release()` reads it. -/
def Conference.member_destroy (c : Conference) (member_id : Int) (stale : Option Nat) :
    Except Fault Conference :=
  (c.members_.remove .useAfterDelete Member.member_id_ member_id stale).map fun members =>
    { c with members_ := members }

/-- The ids of the descriptions. -/
def Conference.member_list (c : Conference) : Except Fault (List Int) :=
  c.members_.keys .useAfterDelete Member.member_id_

/-! ## The conferences of the server -/

def D_MAX_CONF_ID : Int := 1023

def Server.next_id (s : Server) : Int × Server :=
  (s.next_conf_id_, { s with next_conf_id_ := (s.next_conf_id_ + 1) % (D_MAX_CONF_ID + 1) })

def Server.conference_create (s : Server) : Int × Server :=
  let (conf_id, s) := s.next_id
  (conf_id, { s with conferences_ := s.conferences_.push (.new conf_id) })

/-- `stale` is as in `member_destroy`. -/
def Server.conference_destroy (s : Server) (conf_id : Int) (stale : Option Nat) :
    Except Fault Server :=
  (s.conferences_.remove .useAfterDelete Conference.conf_id_ conf_id stale).map fun confs =>
    { s with conferences_ := confs }

def Server.get_conference (s : Server) (conf_id : Int) : Except Fault (Option Nat × Server) :=
  match s.conferences_.search Fault.useAfterDelete Conference.conf_id_ conf_id with
  | .error e => .error e
  | .ok none => .ok (none, s)
  | .ok (some p) => (s.conferences_.heap.addref .useAfterDelete p).map fun heap =>
      (some p, { s with conferences_ := { s.conferences_ with heap := heap } })

/-- The ids of the descriptions. -/
def Server.conference_list (s : Server) : Except Fault (List Int) :=
  s.conferences_.keys .useAfterDelete Conference.conf_id_

def Server.get_conference_count (s : Server) : Nat := s.conferences_.items.length

/-- `release` of the conference at `p`. -/
def Server.release (s : Server) (p : Nat) : Except Fault Server :=
  (s.conferences_.heap.release .useAfterDelete p).map fun heap =>
    { s with conferences_ := { s.conferences_ with heap := heap } }

/-- A call on the conference at `p`. -/
def Server.call (s : Server) (p : Nat) (f : Conference → Except Fault Conference) :
    Except Fault Server :=
  match s.conferences_.heap.get Fault.useAfterDelete p with
  | .error e => .error e
  | .ok c => (f c).map fun c =>
      { s with conferences_ := { s.conferences_ with heap := s.conferences_.heap.set p c } }

/-! ## The callers -/

/-- `live` and `members` are the ids that were given out and not destroyed, with their objects.
`held` are the references of the callers, as often as each was given out. `conf_ids` and
`member_ids` are how many ids each counter gave out, and how many before that of each object. -/
structure State where
  server : Server
  held : List Nat
  live : List (Int × Nat)
  members : Nat → List (Int × Nat)
  conf_ids : Tally Nat
  member_ids : Nat → Tally Nat

def State.start : State where
  server := .new
  held := []
  live := []
  members := fun _ => []
  conf_ids := .start
  member_ids := fun _ => .start

inductive Action
  | conference_create
  | conference_destroy (conf_id : Int) (stale : Option Nat)
  | get_conference (conf_id : Int)
  /-- The callers release what they hold, and call what they hold. -/
  | release (p : Nat)
  | member_create (p : Nat)
  | member_destroy (p : Nat) (member_id : Int) (stale : Option Nat)
  deriving DecidableEq, Repr

def State.conference_create (s : State) : State :=
  let p := s.server.conferences_.heap.mem.next
  { s with
    server := s.server.conference_create.2
    live := s.live ++ [(s.server.conference_create.1, p)]
    members := put s.members p []
    conf_ids := s.conf_ids.next True (· = p)
    member_ids := put s.member_ids p .start }

/-- What the call gives is the object that is live under the id. -/
def State.get_conference (s : State) (conf_id : Int) : Except Fault State :=
  (s.server.get_conference conf_id).map fun r =>
    { s with
      server := r.2
      held := s.held ++ ((s.live.find? fun x => decide (x.1 = conf_id)).map Prod.snd).toList }

def State.member_create (s : State) (p : Nat) : Except Fault State :=
  let c := s.server.conferences_.heap.object p
  let m := c.members_.heap.mem.next
  (s.server.call p fun c => .ok c.member_create.2).map fun server =>
    { s with
      server := server
      members := put s.members p (s.members p ++ [(c.member_create.1, m)])
      member_ids := put s.member_ids p ((s.member_ids p).next True (· = m)) }

def step (s : State) : Action → Except Fault State
  | .conference_create => .ok s.conference_create
  | .conference_destroy conf_id stale =>
    (s.server.conference_destroy conf_id stale).map fun server =>
      { s with server := server, live := s.live.filter fun x => decide (x.1 ≠ conf_id) }
  | .get_conference conf_id => s.get_conference conf_id
  | .release p =>
    if p ∈ s.held then (s.server.release p).map fun server =>
      { s with server := server, held := s.held.erase p }
    else .ok s
  | .member_create p => if p ∈ s.held then s.member_create p else .ok s
  | .member_destroy p member_id stale =>
    if p ∈ s.held then
      (s.server.call p fun c => c.member_destroy member_id stale).map fun server =>
        { s with
          server := server
          members := put s.members p
            ((s.members p).filter fun x => decide (x.1 ≠ member_id)) }
    else .ok s

/-! ## The property -/

/-- The lists hold what is live, under distinct ids. An object has one reference from its list
and one for each that a caller holds, and an object without any was deleted, once. -/
structure Sound (s : State) : Prop where
  conferences : Registered Conference.conf_id_ s.server.conferences_ s.held s.live
  members : ∀ p, s.server.conferences_.heap.Alive p →
    Registered Member.member_id_ (s.server.conferences_.heap.object p).members_ [] (s.members p)

/-- A new id is not live, and an erased node still has its pointer when it is read. -/
def State.free (s : State) : Action → Prop
  | .conference_create => s.server.next_conf_id_ ∉ s.live.map Prod.fst
  | .conference_destroy conf_id stale => ∀ p, (conf_id, p) ∈ s.live → stale = some p
  | .member_create p => p ∈ s.held →
    (s.server.conferences_.heap.object p).next_memeber_id_ ∉ (s.members p).map Prod.fst
  | .member_destroy p member_id stale => p ∈ s.held →
    ∀ m, (member_id, m) ∈ s.members p → stale = some m
  | _ => True

section

variable {s t : State}

/-! ## What the lists show -/

theorem conference_list_eq (h : Sound s) :
    s.server.conference_list = .ok (s.live.map Prod.fst) := h.conferences.keys_eq _

theorem get_conference_count_eq (h : Sound s) :
    s.server.get_conference_count = s.live.length := by
  rw [h.conferences.items, List.length_map]
  rfl

theorem member_list_eq (h : Sound s) {p : Nat} (hp : p ∈ s.held) :
    (s.server.conferences_.heap.object p).member_list = .ok ((s.members p).map Prod.fst) :=
  (h.members p (h.conferences.alive_held hp)).keys_eq _

/-! ## The calls on the server -/

/-- No object is new or has changed, and no id was given out. -/
structure Fewer (s t : State) : Prop where
  object : t.server.conferences_.heap.object = s.server.conferences_.heap.object
  alive : ∀ p, t.server.conferences_.heap.Alive p → s.server.conferences_.heap.Alive p
  next_conf_id : t.server.next_conf_id_ = s.server.next_conf_id_
  live : ∀ x ∈ t.live, x ∈ s.live
  members : t.members = s.members
  conf_ids : t.conf_ids = s.conf_ids
  member_ids : t.member_ids = s.member_ids

theorem Fewer.refl (s : State) : Fewer s s :=
  ⟨rfl, fun _ hp => hp, rfl, fun _ hx => hx, rfl, rfl, rfl⟩

theorem start_sound : Sound State.start :=
  ⟨registered_empty _ _, fun _ _ => registered_empty _ _⟩

theorem conference_create_sound (h : Sound s)
    (hnew : s.server.next_conf_id_ ∉ s.live.map Prod.fst) : Sound s.conference_create := by
  have hconfs := h.conferences.push (x := Conference.new s.server.next_conf_id_) hnew
  refine ⟨hconfs, fun p hp => ?_⟩
  by_cases hpn : p = s.server.conferences_.heap.mem.next
  · subst hpn
    simp only [State.conference_create, Server.conference_create, Server.next_id, Registry.push,
      Heap.make, put_self]
    exact registered_empty _ _
  · have halive : s.server.conferences_.heap.Alive p :=
      ⟨Nat.lt_of_le_of_ne (Nat.le_of_lt_succ hp.1) hpn, hp.2⟩
    simp only [State.conference_create, Server.conference_create, Server.next_id, Registry.push,
      Heap.make, put_ne _ _ hpn]
    exact h.members p halive

theorem conference_destroy_sound (h : Sound s) {conf_id : Int} {stale : Option Nat}
    (hstale : ∀ p, (conf_id, p) ∈ s.live → stale = some p) :
    ∃ t, step s (.conference_destroy conf_id stale) = .ok t ∧ Sound t ∧ Fewer s t := by
  obtain ⟨confs, hok, hobj, halive, hconfs⟩ := h.conferences.remove Fault.useAfterDelete hstale
  refine ⟨{ s with
    server := { s.server with conferences_ := confs }
    live := s.live.filter fun x => decide (x.1 ≠ conf_id) },
    by simp only [step, Server.conference_destroy, hok, Except.map], ⟨hconfs, fun p hp => ?_⟩,
    ⟨hobj, halive, rfl, fun x hx => (List.mem_filter.mp hx).1, rfl, rfl, rfl⟩⟩
  simp only [hobj]
  exact h.members p (halive p hp)

theorem destroyed_reads (h : Sound s) {conf_id : Int} {stale : Option Nat}
    (hstep : step s (.conference_destroy conf_id stale) = .ok t) (ht : Sound t) (p : Nat)
    (hp : (conf_id, p) ∈ s.live) : stale = some p := by
  obtain ⟨server, hdestroy, rfl⟩ := map_inv hstep
  obtain ⟨confs, hrem, rfl⟩ := map_inv hdestroy
  exact h.conferences.remove_reads hp hrem ht.conferences

/-- The call gives the object that is live under the id, with a reference of its own. -/
theorem get_conference_sound (h : Sound s) (conf_id : Int) :
    ∃ t, s.get_conference conf_id = .ok t ∧ Sound t ∧ Fewer s t := by
  have hsearch := h.conferences.search_eq Fault.useAfterDelete conf_id
  have hlive := h.conferences.find_live conf_id
  cases hfind : s.server.conferences_.items.find? fun p =>
      decide (Conference.conf_id_ (s.server.conferences_.heap.object p) = conf_id) with
  | none =>
    rw [hfind] at hsearch hlive
    refine ⟨s, ?_, h, .refl s⟩
    simp [State.get_conference, Server.get_conference, hsearch, hlive, Except.map]
  | some p =>
    rw [hfind] at hsearch hlive
    obtain ⟨heap, hok, hobj, halive, hheld⟩ :=
      h.conferences.hold (List.mem_of_find?_eq_some hfind) Fault.useAfterDelete
    refine ⟨{ s with
      server := { s.server with conferences_ := { s.server.conferences_ with heap := heap } }
      held := s.held ++ [p] }, ?_, ⟨hheld, fun q hq => ?_⟩,
      ⟨hobj, halive, rfl, fun _ hx => hx, rfl, rfl, rfl⟩⟩
    · simp [State.get_conference, Server.get_conference, hsearch, hlive, hok, Except.map]
    · simp only [hobj]
      exact h.members q (halive q hq)

theorem release_sound (h : Sound s) (p : Nat) :
    ∃ t, step s (.release p) = .ok t ∧ Sound t ∧ Fewer s t := by
  by_cases hp : p ∈ s.held
  · obtain ⟨heap, hok, hobj, halive, hheld⟩ := h.conferences.drop hp Fault.useAfterDelete
    refine ⟨{ s with
      server := { s.server with conferences_ := { s.server.conferences_ with heap := heap } }
      held := s.held.erase p },
      by simp only [step, if_pos hp, Server.release, hok, Except.map],
      ⟨hheld, fun q hq => ?_⟩, ⟨hobj, halive, rfl, fun _ hx => hx, rfl, rfl, rfl⟩⟩
    simp only [hobj]
    exact h.members q (halive q hq)
  · exact ⟨s, by simp only [step, if_neg hp], h, .refl s⟩

/-! ## The calls on a conference -/

/-- A call on a conference that a caller holds changes the members of that conference only. -/
theorem call_sound (h : Sound s) {p : Nat} (hp : p ∈ s.held) {c : Conference}
    {live : List (Int × Nat)} (member_ids : Nat → Tally Nat)
    {f : Conference → Except Fault Conference} (hf : f (s.server.conferences_.heap.object p) = .ok c)
    (hid : c.conf_id_ = (s.server.conferences_.heap.object p).conf_id_)
    (hc : Registered Member.member_id_ c.members_ [] live) :
    ∃ server, s.server.call p f = .ok server ∧
      Sound { s with server, members := put s.members p live, member_ids } := by
  have hget : s.server.conferences_.heap.get Fault.useAfterDelete p =
      .ok (s.server.conferences_.heap.object p) := if_pos (h.conferences.alive_held hp)
  refine ⟨_, by simp only [Server.call, hget, hf, Except.map]; rfl, h.conferences.set hid,
    fun q hq => ?_⟩
  by_cases hqp : q = p
  · subst hqp
    simpa [Heap.set] using hc
  · simp only [Heap.set, put_ne _ _ hqp]
    exact h.members q hq

theorem member_create_sound (h : Sound s) {p : Nat} (hp : p ∈ s.held)
    (hnew : (s.server.conferences_.heap.object p).next_memeber_id_ ∉
      (s.members p).map Prod.fst) : ∃ t, s.member_create p = .ok t ∧ Sound t := by
  have hmembers := h.members p (h.conferences.alive_held hp)
  have hpush := hmembers.push (x := Member.new (s.server.conferences_.heap.object p).conf_id_
    (s.server.conferences_.heap.object p).next_memeber_id_) hnew
  obtain ⟨server, hok, hs⟩ := call_sound h hp _ (f := fun c => .ok c.member_create.2) rfl rfl hpush
  exact ⟨_, by simp only [State.member_create, hok, Except.map]; rfl, hs⟩

theorem member_destroy_sound (h : Sound s) {p : Nat} (hp : p ∈ s.held) {member_id : Int}
    {stale : Option Nat} (hstale : ∀ m, (member_id, m) ∈ s.members p → stale = some m) :
    ∃ t, step s (.member_destroy p member_id stale) = .ok t ∧ Sound t := by
  have hmembers := h.members p (h.conferences.alive_held hp)
  obtain ⟨members, hrem, -, -, hreg⟩ := hmembers.remove Fault.useAfterDelete hstale
  obtain ⟨server, hok, hs⟩ := call_sound h hp s.member_ids
    (c := { s.server.conferences_.heap.object p with members_ := members })
    (f := fun c => c.member_destroy member_id stale)
    (by simp only [Conference.member_destroy, hrem, Except.map]) rfl hreg
  exact ⟨_, by simp only [step, if_pos hp, hok, Except.map], hs⟩

/-- A call on a conference that a caller holds puts what it made in its place. -/
theorem call_members (h : Sound s) {p : Nat} (hp : p ∈ s.held)
    {f : Conference → Except Fault Conference} {server : Server}
    (hcall : s.server.call p f = .ok server) :
    ∃ c, f (s.server.conferences_.heap.object p) = .ok c ∧ server = { s.server with
      conferences_ := { s.server.conferences_ with
        heap := s.server.conferences_.heap.set p c } } := by
  have halive := h.conferences.alive_held hp
  have hget : s.server.conferences_.heap.get Fault.useAfterDelete p =
      .ok (s.server.conferences_.heap.object p) := if_pos halive
  simp only [Server.call, hget] at hcall
  obtain ⟨c, hf, rfl⟩ := map_inv hcall
  exact ⟨c, hf, rfl⟩

theorem created_new (h : Sound s) {p : Nat} (hp : p ∈ s.held) (hstep : s.member_create p = .ok t)
    (ht : Sound t) :
    (s.server.conferences_.heap.object p).next_memeber_id_ ∉ (s.members p).map Prod.fst := by
  obtain ⟨server, hcall, rfl⟩ := map_inv hstep
  obtain ⟨c, -, rfl⟩ := call_members h hp hcall
  have hreg := ht.members p (h.conferences.alive_held hp)
  simp only [put_self] at hreg
  exact hreg.new_key

theorem member_destroyed_reads (h : Sound s) {p : Nat} (hp : p ∈ s.held) {member_id : Int}
    {stale : Option Nat} (hstep : step s (.member_destroy p member_id stale) = .ok t)
    (ht : Sound t) (m : Nat) (hm : (member_id, m) ∈ s.members p) : stale = some m := by
  simp only [step, if_pos hp] at hstep
  obtain ⟨server, hcall, rfl⟩ := map_inv hstep
  obtain ⟨c, hf, rfl⟩ := call_members h hp hcall
  obtain ⟨members, hrem, rfl⟩ := map_inv hf
  have hreg := ht.members p (h.conferences.alive_held hp)
  simp only [put_self, Heap.set] at hreg
  exact (h.members p (h.conferences.alive_held hp)).remove_reads hm hrem hreg

/-! ## Every call -/

theorem free_step (a : Action) (h : Sound s) (hfree : s.free a) :
    ∃ t, step s a = .ok t ∧ Sound t := by
  cases a with
  | conference_create => exact ⟨_, rfl, conference_create_sound h hfree⟩
  | conference_destroy conf_id stale =>
    obtain ⟨t, ht, hs, -⟩ := conference_destroy_sound h hfree
    exact ⟨t, ht, hs⟩
  | get_conference conf_id =>
    obtain ⟨t, ht, hs, -⟩ := get_conference_sound h conf_id
    exact ⟨t, ht, hs⟩
  | release p =>
    obtain ⟨t, ht, hs, -⟩ := release_sound h p
    exact ⟨t, ht, hs⟩
  | member_create p =>
    by_cases hp : p ∈ s.held
    · obtain ⟨t, ht, hs⟩ := member_create_sound h hp (hfree hp)
      exact ⟨t, by simp only [step, if_pos hp, ht], hs⟩
    · exact ⟨s, by simp only [step, if_neg hp], h⟩
  | member_destroy p member_id stale =>
    by_cases hp : p ∈ s.held
    · exact member_destroy_sound h hp (hfree hp)
    · exact ⟨s, by simp only [step, if_neg hp], h⟩

theorem sound_step_free (a : Action) (h : Sound s) (hstep : step s a = .ok t) (ht : Sound t) :
    s.free a := by
  cases a with
  | conference_create =>
    cases hstep
    exact ht.conferences.new_key
  | conference_destroy conf_id stale => exact destroyed_reads h hstep ht
  | get_conference conf_id => trivial
  | release p => trivial
  | member_create p =>
    intro hp
    simp only [step, if_pos hp] at hstep
    exact created_new h hp hstep ht
  | member_destroy p member_id stale => exact fun hp => member_destroyed_reads h hp hstep ht

end

end zonekey_mcu.mcu_server
