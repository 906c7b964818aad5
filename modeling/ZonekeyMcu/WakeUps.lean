-- The event that wakes the worker. The worker resets it before it looks at the connection
-- again, so a drain that is skipped or cut short leaves tasks that nobody signals.
import ZonekeyMcu.NormalUser
import ZonekeyMcu.Lib.Returns

open returns runs

namespace zonekey_mcu.normal_user

/-! ## The wake-up -/

/-- When the worker waits, is connected, and has tasks, the event is signalled. A thread
between its `push_back` and its `signal()` has the lock of the list. -/
def User.Awake (u : User) : Prop :=
  u.worker = .waiting → u.connected = true → u.tasks ≠ [] → u.lock ≠ .pushed → u.signalled = true

/-- The worker does not come back to wait with tasks left over from a turn that was skipped
or cut short, unless an addition signals after it. -/
def User.nothing_left_over (u : User) : Action → Prop
  | .work => u.worker = .check → u.connected = true → u.left_over = true →
    u.signalled = true ∨ u.lock = .pushed
  | _ => True

/-- Tasks that the event does not stand for are left over from the last turn. -/
structure Signals (u : User) : Prop where
  sound : Sound u
  left : u.left_over = true → u.tasks ≠ []
  told : u.worker = .check → u.tasks ≠ [] →
    u.left_over = true ∨ u.signalled = true ∨ u.lock = .pushed
  waits : u.worker = .waiting → u.tasks ≠ [] → u.signalled = true ∨ u.lock = .pushed

theorem signals_start : Signals User.start :=
  ⟨sound_start, by simp [User.start], by simp [User.start], by simp [User.start]⟩

section

variable {u : User}

theorem Signals.awake (h : Signals u) : u.Awake := fun hw _ htasks hlock =>
  (h.waits hw htasks).resolve_right hlock

/-- A worker that is at neither test stays free of both conditions. -/
theorem Signals.elsewhere {u' : User} (hs : Sound u') (hleft : u'.left_over = true → u'.tasks ≠ [])
    (hcheck : u'.worker ≠ .check) (hwait : u'.worker ≠ .waiting) : Signals u' :=
  ⟨hs, hleft, fun hw => absurd hw hcheck, fun hw => absurd hw hwait⟩

theorem work_signals (h : Signals u) (hc : u.nothing_left_over .work) :
    ∃ u', u.work = .ok u' ∧ Signals u' := by
  obtain ⟨u', hok, hs⟩ := work_sound h.sound
  refine ⟨u', hok, ?_⟩
  unfold User.work at hok
  cases hw : u.worker with
  | check =>
    rw [hw] at hok
    cases hok
    by_cases hconn : u.connected = true
    · -- The worker goes to wait.
      simp only [hconn, if_true] at hs ⊢
      refine ⟨hs, h.left, fun hw => (by cases hw), fun _ htasks => ?_⟩
      rcases h.told hw htasks with hover | htold
      · exact hc hw hconn hover
      · exact htold
    · simp only [hconn] at hs ⊢
      exact ⟨hs, h.left, fun _ => h.told hw, fun hw => (by cases hw)⟩
  | waiting =>
    rw [hw] at hok
    cases hok
    by_cases hsig : u.signalled = true
    · simp only [hsig, if_true] at hs ⊢
      exact Signals.elsewhere hs h.left (by simp) (by simp)
    · simp only [hsig] at hs ⊢
      exact ⟨hs, h.left, fun hw => (by cases hw),
        fun _ htasks => .inr ((h.waits hw htasks).resolve_left hsig)⟩
  | resetting =>
    rw [hw] at hok
    cases hok
    exact Signals.elsewhere hs h.left (by simp) (by simp)
  | recheck =>
    simp only [hw] at hok
    split at hok
    · cases hok
      exact Signals.elsewhere hs h.left (by simp) (by simp)
    · cases hok
      exact ⟨hs, of_decide_eq_true, fun _ htasks => .inl (decide_eq_true htasks),
        fun hw => (by cases hw)⟩
  | locking =>
    simp only [hw] at hok
    split at hok
    · cases hok
      exact Signals.elsewhere hs h.left (by simp) (by simp)
    · cases hok
      exact h
  | looping i =>
    simp only [hw] at hok
    split at hok <;> cases hok <;> exact Signals.elsewhere hs h.left (by simp) (by simp)
  | sending i =>
    obtain ⟨before, t, after, htasks, hlen, -⟩ := split_at (h.sound.sending i hw)
    subst hlen
    have ht : t ∈ u.tasks := htasks ▸ List.mem_append_right before List.mem_cons_self
    simp only [hw, send_eq (h.sound.alive t ht) htasks] at hok
    cases hok
    exact Signals.elsewhere hs (fun _ => by simp) (by simp) (by simp)
  | erasing i =>
    obtain ⟨mem', heq, -⟩ := erase_sound h.sound
    simp only [hw, heq, Except.map] at hok
    cases hok
    exact ⟨hs, of_decide_eq_true, fun _ htasks => .inl (decide_eq_true htasks),
      fun hw => (by cases hw)⟩

theorem nothing_left_over_signals (u : User) (a : Action) (h : Signals u)
    (hc : u.nothing_left_over a) : ∃ u', step u a = .ok u' ∧ Signals u' := by
  obtain ⟨u', hok, hs⟩ := step_sound u a h.sound
  cases a with
  | connect => cases hok; exact ⟨_, rfl, hs, h.left, h.told, h.waits⟩
  | disconnect => cases hok; exact ⟨_, rfl, hs, h.left, h.told, h.waits⟩
  | addTask remote_jid cmd option opaque_ptr cb sent =>
    cases hok
    refine ⟨_, rfl, ?_⟩
    unfold User.push at hs ⊢
    split
    · rename_i hfree
      rw [if_pos hfree] at hs
      exact ⟨hs, fun _ => by simp, fun _ _ => .inr (.inr rfl), fun _ _ => .inr rfl⟩
    · exact h
  | addTask_signal =>
    cases hok
    refine ⟨_, rfl, ?_⟩
    split
    · rename_i hpushed
      rw [if_pos hpushed] at hs
      exact ⟨hs, h.left, fun _ _ => .inr (.inl rfl), fun _ _ => .inl rfl⟩
    · exact h
  | addTask_unlock =>
    cases hok
    refine ⟨_, rfl, ?_⟩
    split
    · rename_i hlock
      rw [if_pos hlock] at hs
      have hnot : ∀ {p : Prop}, p ∨ u.lock = .pushed → p := fun hp =>
        hp.resolve_right (by simp [hlock])
      exact ⟨hs, h.left, fun hw htasks => (h.told hw htasks).imp_right fun hp => .inl (hnot hp),
        fun hw htasks => .inl (hnot (h.waits hw htasks))⟩
    · exact h
  | work => exact work_signals h hc
  | timeout =>
    cases hok
    refine ⟨_, rfl, ?_⟩
    split
    · rename_i hwait
      rw [if_pos hwait] at hs
      exact ⟨hs, h.left, fun _ htasks => .inr (h.waits hwait.1 htasks), fun hw => (by cases hw)⟩
    · exact h

/-- A worker that waits with tasks left over has an event that nobody signals. -/
theorem awake_nothing_left_over (u : User) (a : Action) (u' : User) (h : Signals u)
    (hstep : step u a = .ok u') (hawake : u'.Awake) : u.nothing_left_over a := by
  cases a with
  | work =>
    intro hw hconn hover
    change u.work = .ok u' at hstep
    simp only [User.work, hw, hconn, if_true] at hstep
    cases hstep
    by_contra hno
    rw [not_or] at hno
    exact hno.1 (hawake rfl rfl (h.left hover) hno.2)
  | _ => trivial

end

/-! ## The law -/

/-- No wake-up is lost exactly in the runs in which the worker never comes back to wait, while
it is connected, with tasks of a drain that was skipped or cut short and with no addition that
signals after it. -/
theorem no_wake_up_is_lost_while_no_drain_leaves_tasks (acts : List Action) :
    Along step User.Awake User.start acts ↔ Meets step User.nothing_left_over User.start acts :=
  along_iff_meets (fun _ h => h.awake) nothing_left_over_signals awake_nothing_left_over acts
    signals_start

/-- The connection is lost between the reset of the event and the second check, and comes
back. -/
def lost_after_reset : List Action :=
  [.connect, .addTask "mcu_0@app.zonekey.com.cn" "dc.add_sink" "cid=1&sid=3&payload=100" 1 2 false,
    .addTask_signal, .addTask_unlock, .work, .work, .work, .disconnect, .work, .connect, .work]

/-- The worker waits with a task, connected, and the event is not signalled. -/
theorem a_drain_that_was_skipped_is_not_made_up :
    (run step User.start lost_after_reset).map
        (fun u => (u.worker, u.connected, u.signalled, u.lock, u.tasks.length)) =
        .ok (.waiting, true, false, .free, 1) ∧
      ¬ ∀ acts, Along step User.Awake User.start acts := by
  have hrun : (run step User.start lost_after_reset).map
      (fun u => (u.worker, u.connected, u.signalled, u.lock, u.tasks.length)) =
      .ok (.waiting, true, false, .free, 1) := by decide +kernel
  refine ⟨hrun, fun hall => ?_⟩
  obtain ⟨u, hu, heq⟩ := map_inv hrun
  have hawake := along_end (hall lost_after_reset) hu
  simp only [Prod.mk.injEq] at heq
  obtain ⟨hw, hconn, hsig, hlock, hlen⟩ := heq
  have htasks : u.tasks ≠ [] := by
    rintro hnil
    rw [hnil] at hlen
    cases hlen
  have := hawake hw hconn htasks (by rw [hlock]; decide)
  rw [hsig] at this
  cases this

end zonekey_mcu.normal_user
