-- The ids of the registry. A counter that goes round gives out an id again that is still live
-- exactly when it has gone round a whole number of times since that id.
import ZonekeyMcu.ServerRegistry

open returns runs ref_counts cyclic_ids

namespace zonekey_mcu.mcu_server

/-! ## The counters -/

/-- The numbers up to `D_MAX_CONF_ID`. -/
def conference_cycle : Cycle := ⟨0, 1, 0, 1024, by decide, by decide⟩

/-- The values of an `int`, from 0 on. -/
def member_cycle : Cycle := ⟨-2147483648, 1, 2147483648, 4294967296, by decide, by decide⟩

theorem next_conf_id_nth (k : Nat) :
    (conference_cycle.nth k + 1) % (D_MAX_CONF_ID + 1) = conference_cycle.nth (k + 1) := by
  unfold conference_cycle Cycle.nth D_MAX_CONF_ID
  dsimp only
  omega

theorem int_succ_nth (k : Nat) : int_succ (member_cycle.nth k) = member_cycle.nth (k + 1) := by
  rw [nth_succ]
  unfold int_succ member_cycle Cycle.nth
  dsimp only
  split <;> split <;> omega

theorem first_member_id : member_cycle.nth 0 = 0 := by
  unfold member_cycle Cycle.nth
  dsimp only
  omega

/-- A create comes when its counter has not come round to a live object, and an erased node still
has its pointer when it is read. -/
def State.fits (s : State) : Action → Prop
  | .conference_create => Unmet conference_cycle s.conf_ids Prod.snd s.live
  | .conference_destroy conf_id stale => ∀ p, (conf_id, p) ∈ s.live → stale = some p
  | .member_create p => p ∈ s.held →
    Unmet member_cycle (s.member_ids p) Prod.snd (s.members p)
  | .member_destroy p member_id stale => p ∈ s.held →
    ∀ m, (member_id, m) ∈ s.members p → stale = some m
  | _ => True

/-- The registry is sound, and what is known of the ids is right. -/
structure Counted (s : State) : Prop where
  sound : Sound s
  next_conf_id : s.server.next_conf_id_ = conference_cycle.nth s.conf_ids.taken
  conferences : Numbered conference_cycle s.conf_ids Prod.snd Prod.fst s.live
  next_member_id : ∀ p, s.server.conferences_.heap.Alive p →
    (s.server.conferences_.heap.object p).next_memeber_id_ =
      member_cycle.nth (s.member_ids p).taken
  members : ∀ p, s.server.conferences_.heap.Alive p →
    Numbered member_cycle (s.member_ids p) Prod.snd Prod.fst (s.members p)

section

variable {s t : State} {a : Action}

theorem start_counted : Counted State.start :=
  ⟨start_sound, rfl, numbered_nil, fun _ _ => first_member_id.symm, fun _ _ => numbered_nil⟩

/-- A counter that has not come round is at an id that nobody has. -/
theorem Counted.fits_iff (h : Counted s) (a : Action) : s.fits a ↔ s.free a := by
  cases a with
  | conference_create =>
    unfold State.fits State.free
    rw [h.next_conf_id]
    exact h.conferences.fresh_iff.symm
  | member_create p =>
    refine forall_congr' fun hp => ?_
    have halive := h.sound.conferences.alive_held hp
    rw [h.next_member_id p halive]
    exact (h.members p halive).fresh_iff.symm
  | _ => exact Iff.rfl

/-! ## Each step -/

theorem Counted.fewer (h : Counted s) (ht : Sound t) (hf : Fewer s t) : Counted t where
  sound := ht
  next_conf_id := by rw [hf.next_conf_id, hf.conf_ids, h.next_conf_id]
  conferences := by
    rw [hf.conf_ids]
    exact h.conferences.subset hf.live
  next_member_id p hp := by
    rw [hf.object, hf.member_ids]
    exact h.next_member_id p (hf.alive p hp)
  members p hp := by
    rw [hf.members, hf.member_ids]
    exact h.members p (hf.alive p hp)

theorem Counted.conference_create (h : Counted s) (ht : Sound s.conference_create) :
    Counted s.conference_create := by
  have hold : ∀ q, s.conference_create.server.conferences_.heap.Alive q →
      q ≠ s.server.conferences_.heap.mem.next → s.server.conferences_.heap.Alive q :=
    fun q hq hne => ⟨Nat.lt_of_le_of_ne (Nat.le_of_lt_succ hq.1) hne, hq.2⟩
  refine ⟨ht, ?_, ?_, fun q hq => ?_, fun q hq => ?_⟩
  · refine nth_moved trivial ?_
    rw [← next_conf_id_nth, ← h.next_conf_id]
    rfl
  · exact h.conferences.add h.sound.conferences.old (.refl _ _ _) trivial rfl
      h.next_conf_id
  · by_cases hqn : q = s.server.conferences_.heap.mem.next
    · subst hqn
      simp only [State.conference_create, Server.conference_create, Server.next_id, Registry.push,
        Heap.make, put_self]
      exact first_member_id.symm
    · have hsame := h.next_member_id q (hold q hq hqn)
      simp only [State.conference_create, Server.conference_create, Server.next_id, Registry.push,
        Heap.make, put_ne _ _ hqn]
      exact hsame
  · unfold State.conference_create
    dsimp only
    by_cases hqn : q = s.server.conferences_.heap.mem.next
    · rw [hqn, put_self, put_self]
      exact numbered_nil
    · rw [put_ne _ _ hqn, put_ne _ _ hqn]
      exact h.members q (hold q hq hqn)

/-- A call on a conference changes the ids of its own members only. -/
theorem Counted.call (h : Counted s) {p : Nat} {c : Conference} {live : List (Int × Nat)}
    {member_ids : Nat → Tally Nat} (hother : ∀ q, q ≠ p → member_ids q = s.member_ids q)
    (ht : Sound { s with
      server := { s.server with conferences_ := { s.server.conferences_ with
        heap := s.server.conferences_.heap.set p c } }
      members := put s.members p live
      member_ids })
    (hnext : c.next_memeber_id_ = member_cycle.nth (member_ids p).taken)
    (hlive : Numbered member_cycle (member_ids p) Prod.snd Prod.fst live) :
    Counted { s with
      server := { s.server with conferences_ := { s.server.conferences_ with
        heap := s.server.conferences_.heap.set p c } }
      members := put s.members p live
      member_ids } := by
  refine ⟨ht, h.next_conf_id, h.conferences, fun q hq => ?_, fun q hq => ?_⟩
  · by_cases hqp : q = p
    · subst hqp
      simpa [Heap.set] using hnext
    · simp only [Heap.set, put_ne _ _ hqp, hother q hqp]
      exact h.next_member_id q hq
  · by_cases hqp : q = p
    · subst hqp
      simpa using hlive
    · simp only [put_ne _ _ hqp, hother q hqp]
      exact h.members q hq

theorem Counted.member_create (h : Counted s) {p : Nat} (hp : p ∈ s.held)
    (hstep : s.member_create p = .ok t) (ht : Sound t) : Counted t := by
  have halive := h.sound.conferences.alive_held hp
  obtain ⟨server, hcall, rfl⟩ := map_inv hstep
  obtain ⟨c, hc, rfl⟩ := call_members h.sound hp hcall
  cases hc
  refine h.call (fun q hq => put_ne _ _ hq) ht ?_ ?_
  · rw [put_self]
    refine nth_moved trivial ?_
    rw [← int_succ_nth, ← h.next_member_id p halive]
    rfl
  · rw [put_self]
    exact (h.members p halive).add (h.sound.members p halive).old (.refl _ _ _) trivial
      rfl (h.next_member_id p halive)

theorem Counted.member_destroy (h : Counted s) {p : Nat} (hp : p ∈ s.held) {member_id : Int}
    {stale : Option Nat} (hstep : step s (.member_destroy p member_id stale) = .ok t)
    (ht : Sound t) : Counted t := by
  have halive := h.sound.conferences.alive_held hp
  simp only [step, if_pos hp] at hstep
  obtain ⟨server, hcall, rfl⟩ := map_inv hstep
  obtain ⟨c, hf, rfl⟩ := call_members h.sound hp hcall
  obtain ⟨members, -, rfl⟩ := map_inv hf
  exact h.call (fun q _ => rfl) ht (h.next_member_id p halive)
    ((h.members p halive).subset fun x hx => (List.mem_filter.mp hx).1)

theorem Counted.step (h : Counted s) (hstep : step s a = .ok t) (ht : Sound t) : Counted t := by
  have hstay : ∀ {u : State}, mcu_server.step s a = .ok u ∧ Sound u ∧ Fewer s u → Counted t := by
    rintro u ⟨hu, hs, hf⟩
    rw [hstep] at hu
    cases hu
    exact h.fewer hs hf
  cases a with
  | conference_create =>
    cases hstep
    exact h.conference_create ht
  | conference_destroy conf_id stale =>
    obtain ⟨u, hu⟩ := conference_destroy_sound h.sound (destroyed_reads h.sound hstep ht)
    exact hstay hu
  | get_conference conf_id =>
    obtain ⟨u, hu⟩ := get_conference_sound h.sound conf_id
    exact hstay hu
  | release p =>
    obtain ⟨u, hu⟩ := release_sound h.sound p
    exact hstay hu
  | member_create p =>
    by_cases hp : p ∈ s.held
    · simp only [mcu_server.step, if_pos hp] at hstep
      exact h.member_create hp hstep ht
    · simp only [mcu_server.step, if_neg hp] at hstep
      cases hstep
      exact h
  | member_destroy p member_id stale =>
    by_cases hp : p ∈ s.held
    · exact h.member_destroy hp hstep ht
    · simp only [mcu_server.step, if_neg hp] at hstep
      cases hstep
      exact h

end

/-! ## The law -/

theorem fitting_step (s : State) (a : Action) (h : Counted s) (hfits : s.fits a) :
    ∃ t, step s a = .ok t ∧ Counted t := by
  obtain ⟨t, ht, hs⟩ := free_step a h.sound ((h.fits_iff a).mp hfits)
  exact ⟨t, ht, h.step ht hs⟩

theorem sound_step_fits (s : State) (a : Action) (t : State) (h : Counted s)
    (hstep : step s a = .ok t) (ht : Sound t) : s.fits a :=
  (h.fits_iff a).mpr (sound_step_free a h.sound hstep ht)

/-- The registry is sound all along a run exactly when no counter comes round to a live object as
another one is created, and each removal reads the pointer of its object from the erased node. -/
theorem the_registry_is_sound_while_new_ids_are_free_and_erased_nodes_keep_their_pointer
    (acts : List Action) :
    Along step Sound State.start acts ↔ Meets step State.fits State.start acts :=
  along_iff_meets (fun _ h => h.sound) fitting_step sound_step_fits acts start_counted

/-- The conferences of a server on which nothing is destroyed have the ids of the counter, in
order. -/
theorem creates_live (n : Nat) :
    ∃ s, run step State.start (List.replicate n .conference_create) = .ok s ∧
      s.conf_ids.taken = n ∧ s.server.next_conf_id_ = conference_cycle.nth n ∧
      s.live.map Prod.fst = (List.range n).map conference_cycle.nth := by
  induction n with
  | zero => exact ⟨State.start, rfl, rfl, rfl, rfl⟩
  | succ n ih =>
    obtain ⟨s, hrun, htaken, hnext, hlive⟩ := ih
    refine ⟨s.conference_create, ?_, congrArg Nat.succ htaken, ?_, ?_⟩
    · rw [List.replicate_succ', run_append _ hrun]
      rfl
    · rw [← next_conf_id_nth, ← hnext]
      rfl
    · rw [List.range_succ, List.map_append, ← hlive, List.map_singleton, ← hnext]
      exact List.map_append

/-- With 1024 live conferences the next one gets the id 0 again. And when the memory of an
erased node was used again, the removal reads no conference there. -/
theorem a_full_server_gives_a_live_id_again :
    ¬ (∀ acts, Along step Sound State.start acts) ∧
      (run step State.start [.conference_create, .conference_destroy 0 none]).map State.held =
        .error .useAfterDelete := by
  refine ⟨fun hall => ?_, by decide +kernel⟩
  obtain ⟨s, hrun, -, hnext, hlive⟩ := creates_live 1024
  have hrun' : run step State.start
      (List.replicate 1024 .conference_create ++ [.conference_create]) =
      .ok s.conference_create := by
    rw [run_append _ hrun]
    rfl
  have hnew : s.server.next_conf_id_ ∉ s.live.map Prod.fst :=
    (along_end (hall _) hrun').conferences.new_key
  rw [hnext, hlive] at hnew
  have hround : conference_cycle.nth 0 = conference_cycle.nth 1024 :=
    (nth_eq_iff (Nat.zero_le _)).mpr (Nat.dvd_refl _)
  exact hnew (List.mem_map.mpr ⟨0, List.mem_range.mpr (by decide), hround⟩)

end zonekey_mcu.mcu_server
