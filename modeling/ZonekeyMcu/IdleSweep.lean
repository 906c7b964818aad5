-- The idle sweep of the server loop. A turn marks a conference that was empty for two
-- minutes, and the sweep deletes what is marked. The mark is never taken back, so a
-- command between the two can put a conference in use again.
import ZonekeyMcu.ServerRuns

open runs zonekey_mcu.members zonekey_mcu.options zonekey_mcu.conference

namespace zonekey_mcu.server

/-! ## Conferences in use -/

/-- A conference with no sources and no streams. Its sinks do not count. -/
def Unused (c : Conference) : Prop := c.sources_ = [] ∧ c.streams_ = []

/-- What the sweep relies on. -/
def Spared (c : Conference) : Prop := c.idle = true → Unused c

/-- The call asks for a source or a stream. -/
def populates : Call → Prop
  | .addSource _ params => asks_source params
  | .addStream _ params => asks_stream params
  | .addStreamWithPublisher _ params => asks_stream params
  | _ => False

/-- The call does not populate a conference that is marked. -/
def leaves_marked (c : Conference) (call : Call) : Prop := c.idle = true → ¬ populates call

variable {c : Conference}

/-! ## Each call -/

/-- A new conference is not marked. -/
theorem new_spared {id : Int} (type : ConferenceType) (w : World) (desc : String) :
    Spared ((Conference.new type w.env w.want_alpha id).set_desc desc) :=
  fun hidle => absurd hidle Bool.false_ne_true

theorem change_spared {c' : Conference} (hc : Change c c') (h : Spared c) : Spared c' := by
  intro hidle
  cases hc with
  | marked desc_ stamp_idle_ idle_ reg_notify_tokens_ hmark =>
    exact (hmark hidle).elim h id
  | lost => exact h hidle
  | source_gone hs =>
    obtain ⟨hsources, -⟩ := h hidle
    rw [hs] at hsources
    simp at hsources
  | sink_gone =>
    obtain ⟨hsources, hstreams⟩ := h hidle
    exact ⟨hsources, by simp [hstreams]⟩
  | stream_gone hs =>
    obtain ⟨-, hstreams⟩ := h hidle
    rw [hs] at hstreams
    simp at hstreams
  | source_turn env hs =>
    obtain ⟨hsources, -⟩ := h hidle
    rw [hs] at hsources
    simp at hsources
  | sink_turn => exact h hidle
  | stream_turn env hs =>
    obtain ⟨-, hstreams⟩ := h hidle
    rw [hs] at hstreams
    simp at hstreams

theorem changes_spared {c' : Conference} (hc : Changes c c') (h : Spared c) : Spared c' := by
  induction hc with
  | refl => exact h
  | tail _ hstep ih => exact change_spared hstep ih

/-- A call that does not populate a marked conference leaves every marked one empty. -/
theorem effect_spared {call : Call} {c' : Conference} (he : Effect c call c')
    (hcall : leaves_marked c call) (h : Spared c) : Spared c' := by
  cases he with
  | changes hc => exact changes_spared hc h
  | refused env params hc =>
    have hcounted : Spared c.counted := h
    exact changes_spared hc hcounted
  | addSource env params hchk hpay => exact fun hidle => absurd ⟨hchk, hpay⟩ (hcall hidle)
  | addSink env params hchk hpay hkind ht =>
    rename_i payload target
    intro hidle
    cases target with
    | mix => exact h hidle
    | graph p => exact h hidle
    | stream p =>
      obtain ⟨hsources, hstreams⟩ := h hidle
      refine ⟨hsources, ?_⟩
      change (c.streams_.map fun s => _) = []
      rw [hstreams]
      rfl
  | addStream env sink publisher params hkind htype hchk hpay =>
    intro hidle
    cases call with
    | addStream env' params' =>
      obtain ⟨-, rfl, -⟩ := hkind
      exact absurd ⟨hchk, hpay⟩ (hcall hidle)
    | addStreamWithPublisher env' params' =>
      obtain ⟨-, rfl, -⟩ := hkind
      exact absurd ⟨hchk, hpay⟩ (hcall hidle)
    | _ => exact hkind.elim
  | edit => exact h

/-! ## Runs -/

/-- What holds of the server along a run that leaves the marked conferences alone. -/
structure Quiet (s : System) : Prop where
  sound : ServerSound s.mcu
  spared : ∀ c ∈ s.mcu.conferences_, Spared c

theorem Quiet.step {s t : System} {a : Action} (h : Quiet s) (ha : s.meets leaves_marked a)
    (hs : step s a = .ok t) : Quiet t := by
  have hstepped := h.sound.step_inv hs
  refine ⟨h.sound.stepped hstepped, ?_⟩
  exact stepped_keeps_each new_spared (fun c call c' _ hP hC he => effect_spared he hC hP)
    (fun _ _ _ => id) h.sound h.spared ha hstepped

theorem quiet_run {cap_max : Nat} {actions : List Action} {s : System}
    (hrun : run step (System.new cap_max) actions = .ok s)
    (hmeets : Meets step (System.meets leaves_marked) (System.new cap_max) actions) : Quiet s :=
  run_keeps_of_meets (fun _ _ _ h ha hs => h.step ha hs)
    ⟨new_server_sound cap_max, fun _ hc => absurd hc List.not_mem_nil⟩ hmeets hrun

/-! ## The law -/

/-- In a run whose commands put nothing into a marked conference, whatever the
interleaving, the sweep deletes exactly the marked ones, and they are not in use. -/
theorem the_sweep_deletes_unused_conferences {cap_max : Nat} {actions : List Action} {s : System}
    (hrun : run step (System.new cap_max) actions = .ok s)
    (hmeets : Meets step (System.meets leaves_marked) (System.new cap_max) actions)
    (hnext : s.next = .sweep) :
    (∀ c ∈ s.mcu.conferences_, c.idle = true → c.sources_ = [] ∧ c.streams_ = []) ∧
    ∀ env t, step s (.loop env) = .ok t →
      t.mcu.conferences_ = s.mcu.conferences_.filter fun c => !c.idle := by
  have h := quiet_run hrun hmeets
  refine ⟨h.spared, fun env t hs => ?_⟩
  cases h.sound.step_inv hs with
  | run_once hno => rw [hnext] at hno; cases hno
  | sweep => rfl

theorem an_empty_conference_is_swept : ∃ s t,
    run step (System.new 4) [.ask "create_conference" "mode=director", .turn_at 120001] = .ok s ∧
      s.next = .sweep ∧ s.mcu.conferences_ ≠ [] ∧ step s (.turn_at 120001) = .ok t ∧
      t.mcu.conferences_ = s.mcu.conferences_.filter fun c => !c.idle := by
  obtain ⟨s, t, hrun, hnext, hne, ht⟩ : ∃ s t,
      run step (System.new 4) [.ask "create_conference" "mode=director", .turn_at 120001] = .ok s ∧
      s.next = .sweep ∧ s.mcu.conferences_ ≠ [] ∧ step s (.turn_at 120001) = .ok t :=
    ⟨_, _, rfl, rfl, List.cons_ne_nil _ _, rfl⟩
  refine ⟨s, t, hrun, hnext, hne, ht, ?_⟩
  refine (the_sweep_deletes_unused_conferences hrun ?_ hnext).2 _ t ht
  refine ⟨fun params c call hparse hcalled => ?_, fun _ _ => ⟨trivial, fun _ _ => trivial⟩⟩
  cases hparse
  cases hcalled

/-- A source comes to a conference that is marked, and the sweep deletes it. -/
theorem the_sweep_deletes_a_conference_in_use : ∃ s c t,
    run step (System.new 4) [.ask "create_conference" "mode=director", .turn_at 120001,
      .ask "dc.add_source" "cid=1&payload=100"] = .ok s ∧
      s.next = .sweep ∧ c ∈ s.mcu.conferences_ ∧ c.sources_ ≠ [] ∧
      step s (.turn_at 120001) = .ok t ∧ c ∉ t.mcu.conferences_ :=
  ⟨_, _, _, rfl, rfl, List.mem_cons_self, List.cons_ne_nil _ _, rfl, List.not_mem_nil⟩

end zonekey_mcu.server
