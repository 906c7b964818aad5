-- Runs of calls on one conference: what a call leaves as it is, and the runs that
-- keep the z-order of the video mixer in order.
import ZonekeyMcu.ConferenceCalls

open runs zonekey_mcu.members zonekey_mcu.options zonekey_mcu.director
open zonekey_mcu.video_mixer (CTX Op Ordered Lossless)

namespace zonekey_mcu.conference

variable {c : Conference}

/-! ## The class and the id -/

theorem change_kind {c' : Conference} (hc : Change c c') : c'.type = c.type ∧ c'.cid_ = c.cid_ := by
  cases hc <;> exact ⟨rfl, rfl⟩

theorem changes_kind {c' : Conference} (hc : Changes c c') :
    c'.type = c.type ∧ c'.cid_ = c.cid_ := by
  induction hc with
  | refl => exact ⟨rfl, rfl⟩
  | tail _ hstep ih =>
    obtain ⟨htype, hcid⟩ := change_kind hstep
    exact ⟨htype.trans ih.1, hcid.trans ih.2⟩

/-- A call leaves the class and the id of a conference as they are. -/
theorem effect_kind {call : Call} {c' : Conference} (he : Effect c call c') :
    c'.type = c.type ∧ c'.cid_ = c.cid_ := by
  cases he with
  | changes hc => exact changes_kind hc
  | refused env params hc =>
    have hkind := changes_kind hc
    exact hkind
  | addSource => exact ⟨rfl, rfl⟩
  | addSink env params hchk hpay hkind ht =>
    rename_i payload target
    cases target <;> exact ⟨rfl, rfl⟩
  | addStream => exact ⟨rfl, rfl⟩
  | edit => exact ⟨rfl, rfl⟩

/-! ## The order along a run -/

/-- No command of the run sends a picture from the third place or later to the
bottom. -/
def Conference.lossless (c : Conference) : Call → Prop
  | .setParams params =>
    ∀ s op, c.commanded params = some (s, op) → Lossless c.filters.video_mixer op
  | _ => True

theorem run_places_ordered {m m' : CTX} {ops : List Op}
    (hops : ∀ op ∈ ops, ∃ desc, op = .set_channel_desc desc)
    (hr : run video_mixer.step m ops = .ok m') (h : Ordered m) : Ordered m' := by
  induction ops generalizing m with
  | nil => cases hr; exact h
  | cons op ops ih =>
    obtain ⟨u, hu, hrest⟩ := run_cons_inv hr
    obtain ⟨desc, rfl⟩ := hops op List.mem_cons_self
    obtain ⟨v, hv, ho⟩ := video_mixer.step_ordered m (.set_channel_desc desc) h trivial
    rw [hu] at hv
    cases hv
    exact ih (fun op hop => hops op (List.mem_cons_of_mem _ hop)) hrest ho

/-- A call that loses no picture keeps the z-order in order. -/
theorem Sound.effect_ordered (h : Sound c) {call : Call} {c' : Conference}
    (he : Effect c call c') (hcall : c.lossless call) (ho : Ordered c.filters.video_mixer) :
    Ordered c'.filters.video_mixer := by
  cases he with
  | changes hc => exact h.changes_ordered hc ho
  | refused env params hc => exact h.counted.changes_ordered hc ho
  | addSource => exact ho
  | addSink env params hchk hpay hkind ht =>
    rename_i payload target
    cases target <;> exact ho
  | addStream env sink publisher params hkind htype hchk hpay hadd hrc =>
    obtain ⟨cid, -, hkeep, -⟩ := h.stream_channel hpay hadd hrc
    exact hkeep ho
  | edit htype ops setting hops hm =>
    rename_i m
    have hordered : Ordered m := by
      cases call with
      | setParams params =>
        cases hcmd : c.commanded params with
        | none =>
          have hnil : ops = [] := by simpa [Conference.edits, hcmd] using hops
          rw [hnil] at hm
          cases hm
          exact ho
        | some r =>
          obtain ⟨s, op⟩ := r
          have hone : ops = [op] := by simpa [Conference.edits, hcmd] using hops
          obtain ⟨u, hu, ho'⟩ := video_mixer.step_ordered _ op ho (hcall s op hcmd)
          rw [hone, run_cons_ok _ hu] at hm
          cases hm
          exact ho'
      | vs_exchange_position id1 id2 => exact run_places_ordered hops hm ho
      | _ => exact hops.elim
    exact ordered_congr hordered rfl fun _ => rfl

/-- What holds of a conference along such a run. -/
structure Orderly (c : Conference) : Prop where
  sound : Sound c
  ordered : Ordered c.filters.video_mixer

theorem new_orderly (type : ConferenceType) (env : Env) (want_alpha : Nat → Int) (id : Int) :
    Orderly (Conference.new type env want_alpha id) :=
  ⟨new_sound type env want_alpha id, [], video_mixer.new_orders want_alpha⟩

theorem Orderly.step (h : Orderly c) {call : Call} {c' : Conference} (hcall : c.lossless call)
    (hs : step c call = .ok c') : Orderly c' := by
  obtain ⟨he, hsound⟩ := h.sound.step hs
  exact ⟨hsound, h.sound.effect_ordered he hcall h.ordered⟩

/-- The calls that add members, take them out, or let them time out. -/
def is_member_call : Call → Bool
  | .setParams _ => false
  | .vs_exchange_position _ _ => false
  | _ => true

theorem member_call_lossless {call : Call} (h : is_member_call call = true) (c : Conference) :
    c.lossless call := by
  cases call with
  | setParams params => cases h
  | _ => trivial

section

variable {type : ConferenceType} {env : Env} {want_alpha : Nat → Int} {id : Int}
  {calls : List Call}

theorem orderly_run (hrun : run step (Conference.new type env want_alpha id) calls = .ok c)
    (hcalls : Meets step Conference.lossless (Conference.new type env want_alpha id) calls) :
    Orderly c :=
  run_keeps_of_meets (fun _ _ _ h hc hs => h.step hc hs) (new_orderly type env want_alpha id)
    hcalls hrun

theorem sound_run (hrun : run step (Conference.new type env want_alpha id) calls = .ok c) :
    Sound c :=
  run_keeps (fun _ _ _ h hs => (h.step hs).2) (new_sound type env want_alpha id) hrun

/-- A conference is of one class all its life. -/
theorem run_kind (hrun : run step (Conference.new type env want_alpha id) calls = .ok c) :
    c.type = type := by
  have hkeep := run_keeps (I := fun c => Sound c ∧ c.type = type) (fun d call d' h hs => by
    obtain ⟨he, hsound⟩ := h.1.step hs
    exact ⟨hsound, (effect_kind he).1.trans h.2⟩) ⟨new_sound type env want_alpha id, rfl⟩ hrun
  exact hkeep.2

end

end zonekey_mcu.conference
