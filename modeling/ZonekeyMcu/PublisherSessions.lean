-- The laws of the publisher: no session is in both lists, and a removed session
-- gets no packet. A pass that moves a session to the sending list, after its
-- `del_remote` has searched that list, breaks the second law.
import ZonekeyMcu.Publisher
import ZonekeyMcu.Lib.ListMoves
import Mathlib.Data.List.Nodup

open runs list_moves

namespace zonekey_mcu.publisher

variable {S : Type} [DecidableEq S]

/-! ## The pending list -/

/-- The sessions of the pending list. -/
def CTX.pending (ctx : CTX S) : List S := ctx.pendings_.map (·.rs)

omit [DecidableEq S] in
theorem pending_of_index {ctx : CTX S} {j : Nat} {ps : PendingRS S}
    (h : ctx.pendings_[j]? = some ps) : ctx.pending[j]? = some ps.rs := by
  simp [CTX.pending, h]

omit [DecidableEq S] in
theorem index_of_pending {ctx : CTX S} {rs : S} (h : rs ∈ ctx.pending) :
    ∃ (j : Nat) (ps : PendingRS S), ctx.pendings_[j]? = some ps ∧ ps.rs = rs := by
  obtain ⟨ps, hmem, hrs⟩ := List.mem_map.mp h
  obtain ⟨j, hj⟩ := List.getElem?_of_mem hmem
  exact ⟨j, ps, hj, hrs⟩

omit [DecidableEq S] in
theorem mem_pending_of_index {ctx : CTX S} {j : Nat} {ps : PendingRS S}
    (h : ctx.pendings_[j]? = some ps) : ps.rs ∈ ctx.pending :=
  List.mem_of_getElem? (pending_of_index h)

omit [DecidableEq S] in
/-- With no session twice, the index of a pending session is the only one. -/
theorem index_unique {ctx : CTX S} (hn : ctx.pending.Nodup) {j k : Nat} {ps qs : PendingRS S}
    (hj : ctx.pendings_[j]? = some ps) (hk : ctx.pendings_[k]? = some qs) (h : ps.rs = qs.rs) :
    j = k := by
  have hj' := pending_of_index hj
  have hk' := pending_of_index hk
  have hlt : j < ctx.pending.length := (List.getElem?_eq_some_iff.mp hj').1
  exact (List.getElem?_inj hlt hn).mp (by rw [hj', hk', h])

omit [DecidableEq S] in
/-- A visit changes what is known of a session, and not the list of sessions. -/
theorem pending_try_session {ctx : CTX S} {i : Nat} {ps ps' : PendingRS S}
    (h : ctx.pendings_[i]? = some ps) (hrs : ps'.rs = ps.rs) :
    (ctx.try_session i ps').pending = ctx.pending := by
  obtain ⟨hi, hget⟩ := List.getElem?_eq_some_iff.mp (pending_of_index h)
  have hset : ctx.pending.set i ps'.rs = ctx.pending := by
    rw [hrs, ← hget, List.set_getElem_self]
  simpa only [CTX.pending, CTX.try_session, List.map_set] using hset

theorem pending_del_pending (ctx : CTX S) (rs : S) :
    (ctx.del_pending rs).pending = ctx.pending.erase rs := by
  unfold CTX.pending CTX.del_pending
  induction ctx.pendings_ with
  | nil => rfl
  | cons ps pss ih =>
    by_cases h : ps.rs = rs
    · simp [h]
    · simp [h, ih]

/-! ## The invariant -/

/-- What holds between any two sections. A session is in both lists only when
the pass that goes on has moved it, and then the end of the pass drops it. -/
structure Tidy (w : World S) : Prop where
  sending_nodup : w.ctx.rtp_sessions_.Nodup
  pending_nodup : w.ctx.pending.Nodup
  both : ∀ (j : Nat) (ps : PendingRS S), w.ctx.pendings_[j]? = some ps →
    ps.rs ∈ w.ctx.rtp_sessions_ → op_chk_recved ps = true ∧ ∃ i, w.pass = some i ∧ j < i
  sending_added : ∀ rs ∈ w.ctx.rtp_sessions_, rs ∈ w.added
  pending_added : ∀ rs ∈ w.ctx.pending, rs ∈ w.added
  gone : ∀ rs ∈ w.removed, rs ∈ w.added ∧ rs ∉ w.ctx.rtp_sessions_ ∧ rs ∉ w.ctx.pending
  leaving : ∀ rs, (rs, true) ∈ w.mid → rs ∈ w.added ∧ rs ∉ w.ctx.rtp_sessions_

/-- The pass does not move a session whose `del_remote` has already searched
the sending list. -/
def Settled (w : World S) : Op S → Prop
  | .chk_try rtp rtcp => ∀ i ps, w.pass = some i → w.ctx.pendings_[i]? = some ps →
    op_chk_recved (try_recv ps rtp rtcp) = true → (ps.rs, true) ∉ w.mid
  | _ => True

omit [DecidableEq S] in
theorem new_tidy (rem_addr : S → RemAddr) : Tidy (World.new rem_addr) where
  sending_nodup := List.nodup_nil
  pending_nodup := List.nodup_nil
  both j ps h := by simp [World.new] at h
  sending_added rs h := by simp [World.new] at h
  pending_added rs h := by simp [World.new, CTX.pending] at h
  gone rs h := by simp [World.new] at h
  leaving rs h := by simp [World.new] at h

section

variable {w : World S}

omit [DecidableEq S] in
theorem push_pending_tidy (h : Tidy w) {rs : S} (hnew : rs ∉ w.added) :
    Tidy { w with
      ctx := { w.ctx with pendings_ := w.ctx.pendings_ ++ [PendingRS.new rs] }
      added := rs :: w.added } := by
  have hs : rs ∉ w.ctx.rtp_sessions_ := fun hm => hnew (h.sending_added rs hm)
  have hp : rs ∉ w.ctx.pending := fun hm => hnew (h.pending_added rs hm)
  have hpend : CTX.pending { w.ctx with pendings_ := w.ctx.pendings_ ++ [PendingRS.new rs] } =
      w.ctx.pending ++ [rs] := by
    simp [CTX.pending, PendingRS.new]
  refine ⟨h.sending_nodup, ?_, ?_, ?_, ?_, ?_, ?_⟩
  · rw [hpend]
    exact nodup_append_one h.pending_nodup hp
  · intro j ps hj hm
    rw [List.getElem?_append] at hj
    split at hj
    · exact h.both j ps hj hm
    · -- The new session is the last one, and it is not in the sending list.
      have hlast := List.mem_of_getElem? hj
      rw [List.mem_singleton] at hlast
      rw [hlast] at hm
      exact absurd hm hs
  · exact fun x hx => List.mem_cons_of_mem rs (h.sending_added x hx)
  · intro x hx
    rw [hpend, List.mem_append, List.mem_singleton] at hx
    rcases hx with hx | rfl
    · exact List.mem_cons_of_mem rs (h.pending_added x hx)
    · exact List.mem_cons_self
  · intro x hx
    obtain ⟨ha, hxs, hxp⟩ := h.gone x hx
    have hne : x ≠ rs := fun hxr => hnew (hxr ▸ ha)
    rw [hpend]
    exact ⟨List.mem_cons_of_mem rs ha, hxs, by simp [hxp, hne]⟩
  · intro x hx
    obtain ⟨ha, hxs⟩ := h.leaving x hx
    exact ⟨List.mem_cons_of_mem rs ha, hxs⟩

omit [DecidableEq S] in
theorem push_sending_tidy (h : Tidy w) {rs : S} (hnew : rs ∉ w.added) :
    Tidy { w with
      ctx := { w.ctx with rtp_sessions_ := w.ctx.rtp_sessions_ ++ [rs] }
      added := rs :: w.added } := by
  have hs : rs ∉ w.ctx.rtp_sessions_ := fun hm => hnew (h.sending_added rs hm)
  have hp : rs ∉ w.ctx.pending := fun hm => hnew (h.pending_added rs hm)
  have hne : ∀ x, x ∈ w.added → x ≠ rs := fun x hx hxr => hnew (hxr ▸ hx)
  refine ⟨?_, h.pending_nodup, ?_, ?_, ?_, ?_, ?_⟩
  · exact nodup_append_one h.sending_nodup hs
  · intro j ps hj hm
    rcases List.mem_append.mp hm with hm | hm
    · exact h.both j ps hj hm
    · exact absurd (List.mem_singleton.mp hm ▸ mem_pending_of_index hj) hp
  · intro x hx
    rcases List.mem_append.mp hx with hx | hx
    · exact List.mem_cons_of_mem rs (h.sending_added x hx)
    · rw [List.mem_singleton.mp hx]
      exact List.mem_cons_self
  · exact fun x hx => List.mem_cons_of_mem rs (h.pending_added x hx)
  · intro x hx
    obtain ⟨ha, hxs, hxp⟩ := h.gone x hx
    exact ⟨List.mem_cons_of_mem rs ha, by simp [hxs, hne x ha], hxp⟩
  · intro x hx
    obtain ⟨ha, hxs⟩ := h.leaving x hx
    exact ⟨List.mem_cons_of_mem rs ha, by simp [hxs, hne x ha]⟩

omit [DecidableEq S] in
/-- A new session goes to the end of one of the lists. -/
theorem add_remote_tidy (h : Tidy w) {rs : S} (addr : RemAddr) (hnew : rs ∉ w.added) :
    Tidy { w with ctx := w.ctx.add_remote addr rs, added := rs :: w.added } := by
  unfold CTX.add_remote
  split
  · exact push_pending_tidy h hnew
  · exact push_sending_tidy h hnew

theorem del_sending_tidy (h : Tidy w) (rs : S) :
    Tidy { w with ctx := w.ctx.del_sending rs, mid := (rs, decide (rs ∈ w.added)) :: w.mid } where
  sending_nodup := h.sending_nodup.erase rs
  pending_nodup := h.pending_nodup
  both j ps hj hm := h.both j ps hj (List.mem_of_mem_erase hm)
  sending_added x hx := h.sending_added x (List.mem_of_mem_erase hx)
  pending_added := h.pending_added
  gone x hx := by
    obtain ⟨ha, hxs, hxp⟩ := h.gone x hx
    exact ⟨ha, fun hm => hxs (List.mem_of_mem_erase hm), hxp⟩
  leaving x hx := by
    rcases List.mem_cons.mp hx with hx | hx
    · obtain ⟨rfl, hadded⟩ := Prod.mk.injEq .. ▸ hx
      exact ⟨of_decide_eq_true hadded.symm, h.sending_nodup.not_mem_erase⟩
    · obtain ⟨ha, hxs⟩ := h.leaving x hx
      exact ⟨ha, fun hm => hxs (List.mem_of_mem_erase hm)⟩

theorem del_pending_tidy (h : Tidy w) {rs : S} {was_added : Bool} (hmid : (rs, was_added) ∈ w.mid)
    (hlock : w.pass = none) :
    Tidy { w with
      ctx := w.ctx.del_pending rs
      mid := w.mid.erase (rs, was_added)
      removed := if was_added then rs :: w.removed else w.removed } where
  sending_nodup := h.sending_nodup
  pending_nodup := by
    rw [pending_del_pending]
    exact h.pending_nodup.erase rs
  both j ps hj hm := by
    -- With no pass, no session is in both lists, so none is after the erase.
    have hmem := mem_pending_of_index hj
    rw [pending_del_pending] at hmem
    obtain ⟨k, qs, hk, hqs⟩ := index_of_pending (List.mem_of_mem_erase hmem)
    obtain ⟨_, i, hi, _⟩ := h.both k qs hk (hqs ▸ hm)
    rw [hlock] at hi
    cases hi
  sending_added := h.sending_added
  pending_added x hx := by
    rw [pending_del_pending] at hx
    exact h.pending_added x (List.mem_of_mem_erase hx)
  gone x hx := by
    rw [pending_del_pending]
    have hold : x ∈ w.removed → x ∈ w.added ∧ x ∉ w.ctx.rtp_sessions_ ∧
        x ∉ w.ctx.pending.erase rs := fun hx => by
      obtain ⟨ha, hxs, hxp⟩ := h.gone x hx
      exact ⟨ha, hxs, fun hm => hxp (List.mem_of_mem_erase hm)⟩
    cases was_added with
    | false => exact hold hx
    | true =>
      rcases List.mem_cons.mp hx with rfl | hx
      · obtain ⟨ha, hxs⟩ := h.leaving x hmid
        exact ⟨ha, hxs, h.pending_nodup.not_mem_erase⟩
      · exact hold hx
  leaving x hx := h.leaving x (List.mem_of_mem_erase hx)

/-- A visit of the pass that is not between the two searches of a `del_remote`. -/
theorem chk_try_tidy (h : Tidy w) {i : Nat} {ps ps' : PendingRS S} (hpass : w.pass = some i)
    (hps : w.ctx.pendings_[i]? = some ps) (hrs : ps'.rs = ps.rs)
    (hset : op_chk_recved ps' = true → (ps.rs, true) ∉ w.mid) : Tidy (w.chk_try i ps') := by
  have hpend : (w.ctx.try_session i ps').pending = w.ctx.pending := pending_try_session hps hrs
  -- The pass has not been at this session, so it is not in the sending list.
  have hfresh : ps.rs ∉ w.ctx.rtp_sessions_ := fun hm => by
    obtain ⟨_, k, hk, hlt⟩ := h.both i ps hps hm
    rw [hpass] at hk
    cases hk
    exact Nat.lt_irrefl i hlt
  have hsending : ∀ x, x ∈ (w.ctx.try_session i ps').rtp_sessions_ →
      x ∈ w.ctx.rtp_sessions_ ∨ (x = ps.rs ∧ op_chk_recved ps' = true) := by
    intro x hx
    simp only [CTX.try_session] at hx
    split at hx
    · rename_i hrecved
      rcases List.mem_append.mp hx with hx | hx
      · exact Or.inl hx
      · exact Or.inr ⟨by rw [List.mem_singleton.mp hx, hrs], hrecved⟩
    · exact Or.inl hx
  refine ⟨?_, ?_, ?_, ?_, ?_, ?_, ?_⟩
  · simp only [World.chk_try, CTX.try_session]
    split
    · exact nodup_append_one h.sending_nodup (hrs ▸ hfresh)
    · exact h.sending_nodup
  · simpa only [World.chk_try, hpend] using h.pending_nodup
  · intro j qs hj hm
    have hij : ∀ k, w.ctx.pendings_[j]? = some k → k.rs = ps.rs → j = i := fun k hk hkr =>
      index_unique h.pending_nodup hk hps hkr
    simp only [World.chk_try, CTX.try_session] at hj
    by_cases hji : i = j
    · subst hji
      rw [List.getElem?_set_self (List.getElem?_eq_some_iff.mp hps).1] at hj
      cases hj
      rcases hsending _ hm with hm | ⟨_, hrecved⟩
      · exact absurd (hrs ▸ hm) hfresh
      · exact ⟨hrecved, i + 1, rfl, Nat.lt_succ_self i⟩
    · rw [List.getElem?_set_ne hji] at hj
      rcases hsending _ hm with hm | ⟨hqs, _⟩
      · obtain ⟨hrecved, k, hk, hlt⟩ := h.both j qs hj hm
        rw [hpass] at hk
        cases hk
        exact ⟨hrecved, i + 1, rfl, Nat.lt_succ_of_lt hlt⟩
      · exact absurd (hij qs hj hqs).symm hji
  · intro x hx
    rcases hsending x hx with hx | ⟨rfl, _⟩
    · exact h.sending_added x hx
    · exact h.pending_added _ (mem_pending_of_index hps)
  · intro x hx
    rw [World.chk_try, hpend] at hx
    exact h.pending_added x hx
  · intro x hx
    obtain ⟨ha, hxs, hxp⟩ := h.gone x hx
    rw [World.chk_try, hpend]
    refine ⟨ha, fun hm => ?_, hxp⟩
    rcases hsending x hm with hm | ⟨rfl, _⟩
    · exact hxs hm
    · exact hxp (mem_pending_of_index hps)
  · intro x hx
    obtain ⟨ha, hxs⟩ := h.leaving x hx
    refine ⟨ha, fun hm => ?_⟩
    rcases hsending x hm with hm | ⟨rfl, hrecved⟩
    · exact hxs hm
    · exact hset hrecved hx

omit [DecidableEq S] in
/-- The end of a pass drops the sessions that are in both lists. -/
theorem chk_end_tidy (h : Tidy w) : Tidy { w with ctx := w.ctx.drop_recved, pass := none } := by
  have hsub : w.ctx.drop_recved.pending.Sublist w.ctx.pending :=
    List.Sublist.map _ List.filter_sublist
  refine ⟨h.sending_nodup, h.pending_nodup.sublist hsub, ?_, h.sending_added, ?_, ?_, h.leaving⟩
  · intro j ps hj hm
    have hmem := List.mem_of_getElem? hj
    simp only [CTX.drop_recved, List.mem_filter] at hmem
    obtain ⟨hold, hnot⟩ := hmem
    obtain ⟨k, hk⟩ := List.getElem?_of_mem hold
    have := (h.both k ps hk hm).1
    simp [this] at hnot
  · exact fun x hx => h.pending_added x (hsub.subset hx)
  · intro x hx
    obtain ⟨ha, hxs, hxp⟩ := h.gone x hx
    exact ⟨ha, hxs, fun hm => hxp (hsub.subset hm)⟩

end

theorem step_tidy (w : World S) (op : Op S) (w' : World S) (h : Tidy w) (hop : Settled w op)
    (hs : step w op = .ok w') : Tidy w' := by
  cases took_of_step hs with
  | add_remote rs hnew hlock => exact add_remote_tidy h _ hnew
  | del_sending rs => exact del_sending_tidy h rs
  | del_pending rs was_added hmid hlock => exact del_pending_tidy h hmid hlock
  | chk_begin hlock =>
    refine ⟨h.sending_nodup, h.pending_nodup, ?_, h.sending_added, h.pending_added, h.gone,
      h.leaving⟩
    intro j ps hj hm
    obtain ⟨_, i, hi, _⟩ := h.both j ps hj hm
    rw [hlock] at hi
    cases hi
  | chk_try rtp rtcp i ps hpass hps =>
    exact chk_try_tidy h hpass hps (try_recv_rs ps rtp rtcp) (hop i ps hpass hps)
  | chk_end i hpass hlen => exact chk_end_tidy h
  | dispatch_all hlock => exact h

/-! ## The laws -/

/-- No session is in both lists outside a pass, and a removed session is in no
list and gets no packet. -/
structure Sound (w : World S) : Prop where
  one_list : w.pass = none → ∀ rs, ¬(rs ∈ w.ctx.rtp_sessions_ ∧ rs ∈ w.ctx.pending)
  removed_gone : ∀ rs ∈ w.removed,
    rs ∉ w.ctx.rtp_sessions_ ∧ rs ∉ w.ctx.pending ∧ rs ∉ w.ctx.dispatch_all

omit [DecidableEq S] in
theorem Tidy.sound {w : World S} (h : Tidy w) : Sound w where
  one_list hpass rs := by
    rintro ⟨hs, hp⟩
    obtain ⟨j, ps, hj, rfl⟩ := index_of_pending hp
    obtain ⟨_, i, hi, _⟩ := h.both j ps hj hs
    rw [hpass] at hi
    cases hi
  removed_gone rs hrs := by
    obtain ⟨_, hs, hp⟩ := h.gone rs hrs
    exact ⟨hs, hp, hs⟩

/-- A removed session gets no packet in any run in which no pass moves a
session between the two searches of its `del_remote`. -/
theorem a_removed_session_gets_no_packet (rem_addr : S → RemAddr) (ops : List (Op S))
    (hset : Meets step Settled (World.new rem_addr) ops) {w : World S}
    (hr : run step (World.new rem_addr) ops = .ok w) : Sound w :=
  (run_keeps_of_meets step_tidy (new_tidy rem_addr) hset hr).sound

/-- A session with no known address, which waits for its client. -/
def unknown_addr : RemAddr := { sin_family := 0, sin_port := 0, ip := "", rtcp_port := 0 }

/-- The packets of a client on both sockets. -/
def client_packets : Op Nat := .chk_try (some ("10.0.0.2", 4000)) (some ("10.0.0.2", 4001))

/-- A session that waits, is moved by a pass, and is removed after the pass. -/
def moved_then_removed : List (Op Nat) :=
  [.add_remote 7, .chk_begin, client_packets, .chk_end, .del_sending 7, .del_pending 7 true]

theorem a_moved_session_can_be_removed :
    ∃ w, run step (World.new fun _ => unknown_addr) moved_then_removed = .ok w ∧
      w.removed = [7] ∧ Sound w := by
  refine ⟨_, rfl, rfl,
    a_removed_session_gets_no_packet (fun _ => unknown_addr) moved_then_removed ?_ rfl⟩
  refine meets_cons trivial rfl (meets_cons trivial rfl (meets_cons ?_ rfl ?_))
  · intro i ps _ _ _
    exact List.not_mem_nil
  · exact meets_cons trivial rfl (meets_cons trivial rfl (meets_cons trivial rfl (meets_nil _)))

/-- The pass moves session 7 after `del_remote` has searched the sending list.
When `del_remote` has returned, the session is still sent to. -/
theorem a_removed_session_still_gets_packets :
    ∃ w, run step (World.new fun _ => unknown_addr)
        [.add_remote 7, .del_sending 7, .chk_begin, client_packets, .chk_end,
          .del_pending 7 true] = .ok w ∧
      7 ∈ w.removed ∧ 7 ∈ w.ctx.dispatch_all ∧ ¬ Sound w := by
  refine ⟨_, rfl, by decide, by decide, fun h => ?_⟩
  exact (h.removed_gone 7 (by decide)).2.2 (by decide)

end zonekey_mcu.publisher
