-- Each task of the user is sent exactly once. The worker deletes every task whose flag is
-- true, so a task that it did not come to has to have a flag that is false, and nobody
-- wrote it.
import ZonekeyMcu.NormalUser
import ZonekeyMcu.Lib.Returns

open returns runs memory

namespace zonekey_mcu.normal_user

/-! ## Exactly once -/

/-- Each task is in the list or was passed to the sender once, and none was deleted before. -/
structure Delivered (u : User) : Prop where
  kept : ∀ p < u.mem.next, p ∈ u.tasks.map XmppTask.ptr ∨ u.sender.count p = 1
  once : ∀ p, u.sender.count p ≤ 1
  deleted : ∀ p ∈ u.mem.deleted, u.sender.count p = 1

/-- When the loop has ended, no task that it did not come to has a flag that is true. -/
def User.flags_clear (u : User) : Action → Prop
  | .work => match u.worker with
    | .erasing i => ∀ t ∈ u.tasks.drop i, t.sent = false
    | _ => True
  | _ => True

/-- The tasks that the loop has passed were sent, once, and the rest was not. -/
structure Conserves (u : User) : Prop where
  sound : Sound u
  passed : ∀ t ∈ u.tasks.take u.worker.walked, t.sent = true ∧ u.sender.count t.ptr = 1
  ahead : ∀ t ∈ u.tasks.drop u.worker.walked, u.sender.count t.ptr = 0
  pending : ∀ p < u.mem.next, p ∉ u.mem.deleted → p ∈ u.tasks.map XmppTask.ptr
  gone : ∀ p ∈ u.mem.deleted, u.sender.count p = 1
  unknown : ∀ p, u.mem.next ≤ p → u.sender.count p = 0

theorem conserves_start : Conserves User.start := by
  refine ⟨sound_start, ?_, ?_, ?_, ?_, ?_⟩ <;> simp [User.start, Memory.new]

section

variable {u : User}

theorem Conserves.delivered (h : Conserves u) : Delivered u := by
  refine ⟨fun p hp => ?_, fun p => ?_, h.gone⟩
  · by_cases hd : p ∈ u.mem.deleted
    · exact .inr (h.gone p hd)
    · exact .inl (h.pending p hp hd)
  · by_cases hp : u.mem.next ≤ p
    · rw [h.unknown p hp]
      exact Nat.zero_le 1
    · by_cases hd : p ∈ u.mem.deleted
      · exact Nat.le_of_eq (h.gone p hd)
      · obtain ⟨t, ht, rfl⟩ := List.mem_map.mp (h.pending p (Nat.lt_of_not_le hp) hd)
        rw [← List.take_append_drop u.worker.walked u.tasks] at ht
        rcases List.mem_append.mp ht with ht | ht
        · exact Nat.le_of_eq (h.passed t ht).2
        · rw [h.ahead t ht]
          exact Nat.zero_le 1

/-- A step that touches no task. -/
theorem Conserves.same (h : Conserves u) {u' : User} (hs : Sound u') (htasks : u'.tasks = u.tasks)
    (hmem : u'.mem = u.mem) (hsender : u'.sender = u.sender)
    (hwalked : u'.worker.walked = u.worker.walked) : Conserves u' := by
  refine ⟨hs, ?_, ?_, ?_, ?_, ?_⟩
  · rw [htasks, hsender, hwalked]
    exact h.passed
  · rw [htasks, hsender, hwalked]
    exact h.ahead
  · rw [htasks, hmem]
    exact h.pending
  · rw [hmem, hsender]
    exact h.gone
  · rw [hmem, hsender]
    exact h.unknown

theorem walked_outside {w : Worker} (h : ¬ w.inside) : w.walked = 0 := by
  cases w with
  | looping i => exact absurd trivial h
  | sending i => exact absurd trivial h
  | erasing i => exact absurd trivial h
  | _ => rfl

theorem push_conserves (h : Conserves u) (remote_jid cmd option : String) (opaque_ptr cb : Nat)
    (sent : Bool) : Conserves (u.push remote_jid cmd option opaque_ptr cb sent) := by
  have hs := push_sound h.sound remote_jid cmd option opaque_ptr cb sent
  unfold User.push at hs ⊢
  split
  · rename_i hfree
    have hout : ¬ u.worker.inside := fun hin => by
      rw [h.sound.inside hin] at hfree
      cases hfree
    rw [if_pos hfree] at hs
    have hahead := h.ahead
    rw [walked_outside hout, List.drop_zero] at hahead
    refine ⟨hs, ?_, ?_, ?_, h.gone, ?_⟩
    · simp [walked_outside hout]
    · intro t ht
      simp only [walked_outside hout, List.drop_zero] at ht
      rcases List.mem_append.mp ht with ht | ht
      · exact hahead t ht
      · rw [List.mem_singleton.mp ht]
        exact h.unknown _ (Nat.le_refl _)
    · intro p hp hd
      rw [List.map_append, List.mem_append]
      rcases Nat.lt_succ_iff_lt_or_eq.mp hp with hp | rfl
      · exact .inl (h.pending p hp hd)
      · exact .inr List.mem_cons_self
    · exact fun p hp => h.unknown p (Nat.le_of_succ_le hp)
  · exact h

theorem count_other {p q : Nat} (h : q ≠ p) (l : List Nat) : (l ++ [q]).count p = l.count p := by
  rw [List.count_append, List.count_singleton, if_neg (by simpa using h), Nat.add_zero]

theorem send_conserves (h : Conserves u) {i : Nat} (hi : u.worker = .sending i) :
    ∃ u', u.send i = .ok u' ∧ Conserves u' := by
  obtain ⟨u', hok, hs⟩ := send_sound h.sound hi
  obtain ⟨before, t, after, htasks, hlen, -⟩ := split_at (h.sound.sending i hi)
  subst hlen
  have ht : t ∈ u.tasks := htasks ▸ List.mem_append_right before List.mem_cons_self
  have halive := h.sound.alive t ht
  have heq := send_eq halive htasks
  rw [heq] at hok
  cases hok
  have hpassed := h.passed
  have hahead := h.ahead
  have hnodup := h.sound.nodup
  simp only [hi, Worker.walked, htasks, List.take_left, List.drop_left] at hpassed hahead
  rw [htasks, List.map_append, List.map_cons] at hnodup
  obtain ⟨-, hrest, hdisj⟩ := List.nodup_append.mp hnodup
  have hbefore : ∀ s ∈ before, t.ptr ≠ s.ptr := fun s hs heq =>
    hdisj _ (List.mem_map_of_mem hs) _ List.mem_cons_self heq.symm
  have hafter : ∀ s ∈ after, t.ptr ≠ s.ptr := fun s hs heq =>
    (List.nodup_cons.mp hrest).1 (heq ▸ List.mem_map_of_mem hs)
  have hsplit : before ++ { t with sent := true } :: after =
      (before ++ [{ t with sent := true }]) ++ after := by simp
  have hlen : (before ++ [{ t with sent := true }]).length = before.length + 1 := by simp
  refine ⟨_, heq, hs, ?_, ?_, ?_, ?_, ?_⟩
  · intro s hs'
    simp only [Worker.walked, hsplit, List.take_left' hlen] at hs'
    rcases List.mem_append.mp hs' with hs' | hs'
    · exact ⟨(hpassed s hs').1, (count_other (hbefore s hs') _).trans (hpassed s hs').2⟩
    · rw [List.mem_singleton.mp hs']
      refine ⟨rfl, ?_⟩
      have hcount : u.sender.count t.ptr = 0 := hahead t List.mem_cons_self
      simp [List.count_append, hcount]
  · intro s hs'
    simp only [Worker.walked, hsplit, List.drop_left' hlen] at hs'
    exact (count_other (hafter s hs') _).trans (hahead s (List.mem_cons_of_mem _ hs'))
  · intro p hp hd
    have hmem := h.pending p hp hd
    rw [htasks] at hmem
    simpa using hmem
  · intro p hp
    exact (count_other (fun he : t.ptr = p => halive (he ▸ hp)) _).trans (h.gone p hp)
  · intro p hp
    have hlt : t.ptr < u.mem.next := h.sound.given t ht
    exact (count_other (Nat.ne_of_lt (Nat.lt_of_lt_of_le hlt hp)) _).trans (h.unknown p hp)

/-- When only the tasks that were passed have a flag that is true, only they are deleted. -/
theorem erase_conserves (h : Conserves u) {i : Nat} (hi : u.worker = .erasing i)
    (hclear : ∀ t ∈ u.tasks.drop i, t.sent = false) : ∃ u', u.work = .ok u' ∧ Conserves u' := by
  obtain ⟨mem', hok, hnext, hdel, hsound⟩ := erase_sound h.sound
  have hpassed := h.passed
  have hahead := h.ahead
  rw [hi] at hpassed hahead
  have hrest : u.tasks.filter (!·.sent) = u.tasks.drop i := by
    conv_lhs => rw [← List.take_append_drop i u.tasks]
    rw [List.filter_append, List.filter_eq_nil_iff.mpr fun t ht => by simp [(hpassed t ht).1],
      List.nil_append, List.filter_eq_self.mpr fun t ht => by simp [hclear t ht]]
  have hwork : u.work = .ok { u with
      tasks := u.tasks.filter (!·.sent), mem := mem', lock := .free, worker := .check,
      left_over := decide (u.tasks.filter (!·.sent) ≠ []) } := by
    simp only [User.work, hi, hok]
    rfl
  refine ⟨_, hwork, hsound _, ?_, ?_, ?_, ?_, ?_⟩
  · simp [Worker.walked]
  · intro t ht
    simp only [Worker.walked, List.drop_zero, hrest] at ht
    exact hahead t ht
  · intro p hp hd
    rw [hdel p, not_or, not_exists] at hd
    obtain ⟨t, ht, rfl⟩ := List.mem_map.mp (h.pending p (hnext ▸ hp) hd.2)
    refine List.mem_map_of_mem (List.mem_filter.mpr ⟨ht, ?_⟩)
    cases hsent : t.sent with
    | false => rfl
    | true => exact absurd ⟨ht, hsent, rfl⟩ (hd.1 t)
  · intro p hp
    rcases (hdel p).mp hp with ⟨t, ht, hsent, rfl⟩ | hd
    · rw [← List.take_append_drop i u.tasks] at ht
      rcases List.mem_append.mp ht with ht | ht
      · exact (hpassed t ht).2
      · rw [hclear t ht] at hsent
        cases hsent
    · exact h.gone p hd
  · intro p hp
    exact h.unknown p (hnext ▸ hp)

/-- A step of the worker that is not the erase, and not a call of the sender. -/
theorem moves_conserve (h : Conserves u) (hsend : ∀ i, u.worker ≠ .sending i)
    (herase : ∀ i, u.worker ≠ .erasing i) : ∃ u', u.work = .ok u' ∧ Conserves u' := by
  obtain ⟨u', hok, hs⟩ := work_sound h.sound
  refine ⟨u', hok, ?_⟩
  unfold User.work at hok
  cases hw : u.worker with
  | sending i => exact absurd hw (hsend i)
  | erasing i => exact absurd hw (herase i)
  | check =>
    rw [hw] at hok
    cases hok
    exact h.same hs rfl rfl rfl (by rw [hw]; dsimp only; split <;> rfl)
  | waiting =>
    rw [hw] at hok
    cases hok
    exact h.same hs rfl rfl rfl (by rw [hw]; dsimp only; split <;> rfl)
  | resetting =>
    rw [hw] at hok
    cases hok
    exact h.same hs rfl rfl rfl (by rw [hw]; rfl)
  | recheck =>
    simp only [hw] at hok
    split at hok <;> cases hok <;> exact h.same hs rfl rfl rfl (by rw [hw]; rfl)
  | locking =>
    simp only [hw] at hok
    split at hok <;> cases hok <;> exact h.same hs rfl rfl rfl (by simp [hw, Worker.walked])
  | looping i =>
    simp only [hw] at hok
    split at hok <;> cases hok <;> exact h.same hs rfl rfl rfl (by rw [hw]; rfl)

theorem clear_conserves (u : User) (a : Action) (h : Conserves u) (hclear : u.flags_clear a) :
    ∃ u', step u a = .ok u' ∧ Conserves u' := by
  obtain ⟨u', hok, hs⟩ := step_sound u a h.sound
  cases a with
  | connect => cases hok; exact ⟨_, rfl, h.same hs rfl rfl rfl rfl⟩
  | disconnect => cases hok; exact ⟨_, rfl, h.same hs rfl rfl rfl rfl⟩
  | addTask remote_jid cmd option opaque_ptr cb sent =>
    exact ⟨_, rfl, push_conserves h remote_jid cmd option opaque_ptr cb sent⟩
  | addTask_signal =>
    cases hok
    refine ⟨_, rfl, h.same hs ?_ ?_ ?_ ?_⟩ <;> split <;> rfl
  | addTask_unlock =>
    cases hok
    refine ⟨_, rfl, h.same hs ?_ ?_ ?_ ?_⟩ <;> split <;> rfl
  | timeout =>
    cases hok
    refine ⟨_, rfl, h.same hs ?_ ?_ ?_ ?_⟩
    · split <;> rfl
    · split <;> rfl
    · split <;> rfl
    · split
      · rename_i hw
        rw [hw.1]
        rfl
      · rfl
  | work =>
    change ∃ u', u.work = .ok u' ∧ Conserves u'
    cases hw : u.worker with
    | sending i =>
      obtain ⟨v, hv, hc⟩ := send_conserves h hw
      exact ⟨v, by rw [← hv, User.work, hw], hc⟩
    | erasing i =>
      unfold User.flags_clear at hclear
      rw [hw] at hclear
      exact erase_conserves h hw hclear
    | _ => exact moves_conserve h (by simp [hw]) (by simp [hw])

/-- A task with a true flag that the loop did not come to is deleted unsent. -/
theorem delivered_clear (u : User) (a : Action) (u' : User) (h : Conserves u)
    (hstep : step u a = .ok u') (hd : Delivered u') : u.flags_clear a := by
  cases a with
  | work =>
    unfold User.flags_clear
    cases hw : u.worker with
    | erasing i =>
      intro t ht
      by_contra hsent
      obtain ⟨mem', hok, -, hdel, -⟩ := erase_sound h.sound
      change u.work = .ok u' at hstep
      simp only [User.work, hw, hok, Except.map] at hstep
      cases hstep
      have hgone : t.ptr ∈ mem'.deleted :=
        (hdel _).mpr (.inl ⟨t, List.mem_of_mem_drop ht, by simpa using hsent, rfl⟩)
      have hcount : u.sender.count t.ptr = 1 := hd.deleted _ hgone
      have hahead := h.ahead t (by rw [hw]; exact ht)
      omega
    | _ => trivial
  | _ => trivial

end

/-! ## The law -/

/-- Each task that was added is in the list or was passed to the sender exactly once, and none
is deleted unsent, exactly in the runs in which the memory of no task that the loop leaves
behind had a true `sent` before it was a task. -/
theorem a_task_is_sent_once_while_the_flags_left_behind_are_clear (acts : List Action) :
    Along step Delivered User.start acts ↔ Meets step User.flags_clear User.start acts :=
  along_iff_meets (fun _ h => h.delivered) clear_conserves delivered_clear acts conserves_start

/-- The connection is lost between the second check and the loop, and the memory of the task
had a true flag. -/
def lost_before_loop : List Action :=
  [.connect, .addTask "mcu_0@app.zonekey.com.cn" "dc.add_sink" "cid=1&sid=3&payload=100" 1 2 true,
    .addTask_signal, .addTask_unlock, .work, .work, .work, .work, .disconnect, .work, .work, .work]

/-- The task is deleted, and nothing was sent. -/
theorem a_task_with_a_true_flag_is_deleted_unsent :
    (run step User.start lost_before_loop).map
        (fun u => (u.tasks.length, u.mem.deleted, u.sender)) = .ok (0, [0], []) ∧
      ¬ ∀ acts, Along step Delivered User.start acts := by
  have hrun : (run step User.start lost_before_loop).map
      (fun u => (u.tasks.length, u.mem.deleted, u.sender)) = .ok (0, [0], []) := by
    decide +kernel
  refine ⟨hrun, fun hall => ?_⟩
  obtain ⟨u, hu, heq⟩ := map_inv hrun
  have hd := (along_end (hall lost_before_loop) hu).deleted 0
  simp only [Prod.mk.injEq] at heq
  rw [heq.2.1, heq.2.2] at hd
  exact absurd (hd List.mem_cons_self) (by decide)

end zonekey_mcu.normal_user
