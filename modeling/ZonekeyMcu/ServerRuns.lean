-- Runs of the server: commands, in any order, between the two sections of its loop.
-- A law of one conference, kept by its calls, holds of all conferences of the server.
import ZonekeyMcu.ServerCommands

open runs zonekey_mcu.members zonekey_mcu.options zonekey_mcu.conference

namespace zonekey_mcu.server

/-! ## The sections of the loop -/

/-- Each conference takes its turn, in place. -/
theorem run_once_all_changes {env : Nat → Env} {i : Nat} {cs cs' : List Conference}
    (hs : ∀ c ∈ cs, Sound c) (h : run_once_all env i cs = .ok cs') :
    List.Forall₂ Changes cs cs' := by
  induction cs generalizing i cs' with
  | nil => cases h; exact .nil
  | cons c cs ih =>
    unfold run_once_all at h
    obtain ⟨-, -, h⟩ := bind_ok h
    obtain ⟨d, hd, h⟩ := bind_ok h
    obtain ⟨ds, hrest, h⟩ := bind_ok h
    cases h
    rcases (hs c List.mem_cons_self).run_once (env i) with ⟨herr, -⟩ | ⟨d', hok, hc⟩
    · rw [herr] at hd
      cases hd
    · rw [hok] at hd
      cases hd
      exact .cons hc (ih (fun c hc => hs c (List.mem_cons_of_mem _ hc)) hrest)

/-- The idle conferences go, and only they. -/
theorem func_idle_all_filter {cs cs' : List Conference} {tokens : List Token}
    (h : func_idle_all cs = .ok (cs', tokens)) : cs' = cs.filter fun c => !c.idle := by
  induction cs generalizing cs' tokens with
  | nil => cases h; rfl
  | cons c cs ih =>
    unfold func_idle_all at h
    cases hidle : c.idle with
    | true =>
      rw [hidle, if_pos rfl] at h
      rw [List.filter_cons_of_neg (by simp [hidle])]
      cases hdestroy : c.destroy with
      | error e => simp [hdestroy] at h
      | ok r =>
        cases hrest : func_idle_all cs with
        | error e => simp [hdestroy, hrest] at h
        | ok r' =>
          simp only [hdestroy, hrest, ok_bind, pure_eq_ok, Except.ok.injEq, Prod.mk.injEq] at h
          rw [← h.1]
          exact ih hrest
    | false =>
      rw [hidle, if_neg (by decide)] at h
      rw [List.filter_cons_of_pos (by simp [hidle])]
      cases hrest : func_idle_all cs with
      | error e => simp [hrest] at h
      | ok r' =>
        simp only [hrest, ok_bind, pure_eq_ok, Except.ok.injEq, Prod.mk.injEq] at h
        rw [← h.1, ih hrest]

/-! ## One step -/

/-- What a step that ends has done. -/
inductive Stepped (s : System) : Action → System → Prop
  | command {w : World} {jid str_cmd : String} {str_option : Option String} {token : Token}
      {params : KVS} {mcu : Server} (hparse : util_parse_options str_option = .ok params)
      (h : Served s.mcu w params str_cmd mcu) :
      Stepped s (.command w jid str_cmd str_option token) { s with mcu }
  | run_once {env : Nat → Env} {cs : List Conference} (hnext : s.next = .run_once)
      (h : List.Forall₂ Changes s.mcu.conferences_ cs) :
      Stepped s (.loop env) { mcu := { s.mcu with conferences_ := cs }, next := .sweep }
  | sweep {env : Nat → Env} (hnext : s.next = .sweep) :
      Stepped s (.loop env) { mcu := { s.mcu with
        conferences_ := s.mcu.conferences_.filter fun c => !c.idle }, next := .run_once }

variable {s t : System} {a : Action}

theorem ServerSound.step_inv (h : ServerSound s.mcu) (hs : step s a = .ok t) : Stepped s a t := by
  cases a with
  | command w jid str_cmd str_option token =>
    obtain ⟨r, hcall, hs⟩ := bind_ok hs
    cases hs
    obtain ⟨params, hparse, hcommand⟩ := callback_command_ok hcall
    rcases h.command w jid str_cmd params token with
      ⟨-, e, herr, -⟩ | ⟨-, e, herr, -⟩ | ⟨-, answers, mcu, hok, hserved⟩
    · rw [herr] at hcommand
      cases hcommand
    · rw [herr] at hcommand
      cases hcommand
    · rw [hok] at hcommand
      cases hcommand
      exact .command hparse hserved
  | loop env =>
    unfold step at hs
    dsimp only at hs
    cases hnext : s.next with
    | run_once =>
      rw [hnext] at hs
      dsimp only at hs
      cases hcs : run_once_all env 0 s.mcu.conferences_ with
      | error e => simp [hcs] at hs
      | ok cs =>
        simp only [hcs, ok_bind, pure_eq_ok, Except.ok.injEq] at hs
        rw [← hs]
        exact .run_once hnext (run_once_all_changes h.sound hcs)
    | sweep =>
      rw [hnext] at hs
      dsimp only at hs
      cases hcs : func_idle_all s.mcu.conferences_ with
      | error e => simp [hcs] at hs
      | ok r =>
        simp only [hcs, ok_bind, pure_eq_ok, Except.ok.injEq] at hs
        rw [← hs, func_idle_all_filter hcs]
        exact .sweep hnext

/-! ## Laws of each conference -/

/-- The condition `C` on the call that the action makes. -/
def System.meets (C : Conference → Call → Prop) (s : System) : Action → Prop
  | .command w _ str_cmd str_option _ => ∀ params c call,
      util_parse_options str_option = .ok params →
      s.mcu.called w params str_cmd = some (c, call) → C c call
  | .loop _ => True

theorem forall_middle {α : Type} {P : α → Prop} {before after : List α} {x : α}
    (hbefore : ∀ y ∈ before, P y) (hx : P x) (hafter : ∀ y ∈ after, P y) :
    ∀ y ∈ before ++ x :: after, P y := by
  intro y hy
  rcases List.mem_append.mp hy with hy | hy
  · exact hbefore y hy
  · rcases List.mem_cons.mp hy with rfl | hy
    · exact hx
    · exact hafter y hy

theorem forall_of_forall₂ {α : Type} {R : α → α → Prop} {P Q : α → Prop} {xs ys : List α}
    (h : List.Forall₂ R xs ys) (hP : ∀ x ∈ xs, P x) (hstep : ∀ x y, P x → R x y → Q y) :
    ∀ y ∈ ys, Q y := by
  induction h with
  | nil => exact fun y hy => absurd hy List.not_mem_nil
  | cons hxy hrest ih =>
    intro y hy
    rcases List.mem_cons.mp hy with rfl | hy
    · exact hstep _ _ (hP _ List.mem_cons_self) hxy
    · exact ih (fun x hx => hP x (List.mem_cons_of_mem _ hx)) y hy

section

variable {P : Conference → Prop} {C : Conference → Call → Prop}

/-- The rule for a law `P` of each conference: it holds of a new one, and each call
that meets `C` keeps it. The turns of the loop meet `C` always. -/
theorem stepped_keeps_each
    (hnew : ∀ (type : ConferenceType) (w : World) (desc : String),
      P ((Conference.new type w.env w.want_alpha s.mcu.next_id_).set_desc desc))
    (hkeep : ∀ c call c', Sound c → P c → C c call → Effect c call c' → P c')
    (hturn : ∀ c env, C c (.run_once env))
    (hsound : ServerSound s.mcu) (hP : ∀ c ∈ s.mcu.conferences_, P c)
    (hmeets : s.meets C a) (hs : Stepped s a t) : ∀ c ∈ t.mcu.conferences_, P c := by
  cases hs with
  | command hparse hserved =>
    cases hserved with
    | same => exact hP
    | created hcmd hok type desc =>
      exact forall_append_one hP (hnew type _ desc)
    | destroyed hsplit => exact fun c hc => hP c (mem_split hsplit hc)
    | called hsplit hcalled he =>
      rename_i before after c c' call
      have hm : c ∈ s.mcu.conferences_ := by simp [hsplit]
      refine forall_middle (fun y hy => hP y (by simp [hsplit, hy])) ?_
        (fun y hy => hP y (by simp [hsplit, hy]))
      exact hkeep c call c' (hsound.sound c hm) (hP c hm) (hmeets _ c call hparse hcalled) he
    | registered tokens hsplit =>
      rename_i before after c
      have hm : c ∈ s.mcu.conferences_ := by simp [hsplit]
      refine forall_middle (fun y hy => hP y (by simp [hsplit, hy])) ?_
        (fun y hy => hP y (by simp [hsplit, hy]))
      have hmark : Change c { c with reg_notify_tokens_ := tokens } :=
        .marked c.desc_ c.stamp_idle_ c.idle_ tokens Or.inl
      exact hkeep c (.run_once Env.still) _ (hsound.sound c hm) (hP c hm) (hturn c Env.still)
        (.changes (changes_one hmark))
  | run_once hnext hcs =>
    have hboth : ∀ c ∈ s.mcu.conferences_, Sound c ∧ P c :=
      fun c hc => ⟨hsound.sound c hc, hP c hc⟩
    refine forall_of_forall₂ hcs hboth fun c c' h hc => ?_
    exact hkeep c (.run_once Env.still) c' h.1 h.2 (hturn c Env.still) (.changes hc)
  | sweep hnext => exact fun c hc => hP c (List.mem_filter.mp hc).1

end

/-! ## All runs -/

theorem new_server_sound (cap_max : Nat) : ServerSound (System.new cap_max).mcu :=
  ⟨fun _ hc => absurd hc List.not_mem_nil, fun _ hc => absurd hc List.not_mem_nil, Int.one_pos⟩

theorem next_cid_pos {id : Int} (h : 0 < id) : 0 < next_cid id := by
  unfold next_cid
  split <;> omega

theorem stepped_next (hs : Stepped s a t) :
    t.mcu.next_id_ = s.mcu.next_id_ ∨ t.mcu.next_id_ = next_cid s.mcu.next_id_ := by
  cases hs with
  | command hparse hserved =>
    cases hserved with
    | created => exact Or.inr rfl
    | _ => exact Or.inl rfl
  | run_once => exact Or.inl rfl
  | sweep => exact Or.inl rfl

/-- Each step keeps what the server relies on. -/
theorem ServerSound.stepped (h : ServerSound s.mcu) (hs : Stepped s a t) : ServerSound t.mcu := by
  have hboth := stepped_keeps_each (P := fun c => Sound c ∧ 0 < c.cid_) (C := fun _ _ => True)
    (fun type w desc => ?_) (fun c call c' hsound hP _ he => ?_) (fun _ _ => trivial) h
    (fun c hc => ⟨h.sound c hc, h.positive c hc⟩) ?_ hs
  · refine ⟨fun c hc => (hboth c hc).1, fun c hc => (hboth c hc).2, ?_⟩
    rcases stepped_next hs with heq | heq <;> rw [heq]
    · exact h.next
    · exact next_cid_pos h.next
  · exact ⟨(new_sound type _ _ _).change (.marked desc _ _ _ Or.inl), h.next⟩
  · refine ⟨hsound.effect he, ?_⟩
    rw [(effect_kind he).2]
    exact hP.2
  · cases a <;> simp [System.meets]

theorem ServerSound.step (h : ServerSound s.mcu) (hs : step s a = .ok t) : ServerSound t.mcu :=
  h.stepped (h.step_inv hs)

theorem server_sound_run {cap_max : Nat} {actions : List Action}
    (hrun : run step (System.new cap_max) actions = .ok s) : ServerSound s.mcu :=
  run_keeps (I := fun s => ServerSound s.mcu) (fun _ _ _ h hs => h.step hs)
    (new_server_sound cap_max) hrun

end zonekey_mcu.server
