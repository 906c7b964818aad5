-- Two runs of one step function, side by side. Some actions are hidden: an observer
-- is not to learn from a run which of them there were. The rules here carry what one
-- step keeps between two states to runs of any length.
import ZonekeyMcu.Lib.Runs

open runs

namespace unwinding

variable {σ α ε β : Type}

/-- The actions that are not hidden, in order. -/
def visible (hidden : α → Bool) (as : List α) : List α := as.filter fun a => !hidden a

/-- What an observer sees of a run: one item for each step, up to the first fault. -/
def observed (step : σ → α → Except ε σ) (obs : σ → α → σ → β) : σ → List α → List β
  | _, [] => []
  | s, a :: as => match step s a with
    | .ok t => obs s a t :: observed step obs t as
    | .error _ => []

/-- A relation between the states of two runs, for states that keep `I`. A hidden step
stays among the states that are related, and a visible step of two related states gives
two related states. -/
structure Unwinds (step : σ → α → Except ε σ) (hidden : α → Bool) (I : σ → Prop)
    (R : σ → σ → Prop) : Prop where
  equivalence : Equivalence R
  keeps : ∀ s a t, I s → step s a = .ok t → I t
  respects : ∀ s a t, I s → hidden a = true → step s a = .ok t → R s t
  consistent : ∀ s t a s' t', I s → I t → R s t → hidden a = false →
    step s a = .ok s' → step t a = .ok t' → R s' t'

section

variable {step : σ → α → Except ε σ} {hidden : α → Bool} {I : σ → Prop} {R : σ → σ → Prop}
  {obs : σ → α → σ → β}

theorem visible_hidden {a : α} (as : List α) (h : hidden a = true) :
    visible hidden (a :: as) = visible hidden as := by
  simp [visible, h]

theorem visible_cons {a : α} (as : List α) (h : hidden a = false) :
    visible hidden (a :: as) = a :: visible hidden as := by
  simp [visible, h]

/-- The visible actions of the visible actions are all of them. -/
theorem visible_visible (as : List α) : visible hidden (visible hidden as) = visible hidden as := by
  simp [visible]

theorem Unwinds.hidden_run (h : Unwinds step hidden I R) {s t : σ} {as : List α} (hs : I s)
    (has : ∀ a ∈ as, hidden a = true) (hr : run step s as = .ok t) : R s t := by
  induction as generalizing s with
  | nil =>
    cases hr
    exact h.equivalence.refl _
  | cons a as ih =>
    obtain ⟨u, hu, hrest⟩ := run_cons_inv hr
    have hsu := h.respects s a u hs (has a List.mem_cons_self) hu
    have hut := ih (h.keeps s a u hs hu) (fun b hb => has b (List.mem_cons_of_mem a hb)) hrest
    exact h.equivalence.trans hsu hut

/-- Two runs with the same visible actions end in related states. -/
theorem Unwinds.runs (h : Unwinds step hidden I R) {s t s' t' : σ} {as bs : List α}
    (hsame : visible hidden as = visible hidden bs) (hs : I s) (ht : I t) (hst : R s t)
    (has : run step s as = .ok s') (hbs : run step t bs = .ok t') : R s' t' := by
  induction as generalizing s t bs with
  | nil =>
    cases has
    have hbs_hidden : ∀ b ∈ bs, hidden b = true := by simpa [visible] using hsame.symm
    exact h.equivalence.trans hst (h.hidden_run ht hbs_hidden hbs)
  | cons a as ih =>
    obtain ⟨u, hu, hrest⟩ := run_cons_inv has
    have hIu := h.keeps s a u hs hu
    by_cases ha : hidden a = true
    · rw [visible_hidden as ha] at hsame
      have hut : R u t := h.equivalence.trans (h.equivalence.symm (h.respects s a u hs ha hu)) hst
      exact ih hsame hIu ht hut hrest hbs
    · rw [Bool.not_eq_true] at ha
      rw [visible_cons as ha] at hsame
      -- The other run has hidden actions, the same visible one, and the others.
      obtain ⟨before, after, rfl, hbefore, -, hafter⟩ := List.filter_eq_cons_iff.mp hsame.symm
      obtain ⟨v, hv, hvrest⟩ := run_append_inv hbs
      obtain ⟨w, hw, hwrest⟩ := run_cons_inv hvrest
      have hIv := run_keeps h.keeps ht hv
      have hsv := h.equivalence.trans hst (h.hidden_run ht (by simpa using hbefore) hv)
      exact ih hafter.symm hIu (h.keeps v a w hIv hw)
        (h.consistent s v a u w hs hIv hsv ha hu hw) hrest hwrest

/-! ## What an observer sees -/

/-- When the steps of two related states show the same and keep the states related, two runs
of the same actions show the same. -/
theorem observed_eq (hstep : ∀ s t a, R s t → ∃ s' t',
      step s a = .ok s' ∧ step t a = .ok t' ∧ R s' t' ∧ obs s a s' = obs t a t') {s t : σ}
    (h : R s t) (as : List α) : observed step obs s as = observed step obs t as := by
  induction as generalizing s t with
  | nil => rfl
  | cons a as ih =>
    obtain ⟨s', t', hs, ht, hR, hobs⟩ := hstep s t a h
    simp only [observed, hs, ht, hobs, ih hR]

/-- The last step of a run is the last item that an observer sees. -/
theorem observed_last {s t u : σ} {as : List α} {a : α} (hr : run step s as = .ok t)
    (hs : step t a = .ok u) :
    observed step obs s (as ++ [a]) = observed step obs s as ++ [obs t a u] := by
  induction as generalizing s with
  | nil =>
    cases hr
    simp [observed, hs]
  | cons b as ih =>
    obtain ⟨v, hv, hrest⟩ := run_cons_inv hr
    simp only [List.cons_append, observed, hv, ih hrest]

/-- Two runs that show the same show the same in their last step. -/
theorem obs_last_eq {s t s' t' u v : σ} {as : List α} {a : α}
    (h : observed step obs s (as ++ [a]) = observed step obs t (as ++ [a]))
    (hs : run step s as = .ok s') (ht : run step t as = .ok t') (hu : step s' a = .ok u)
    (hv : step t' a = .ok v) : obs s' a u = obs t' a v := by
  rw [observed_last hs hu, observed_last ht hv] at h
  have hlast := congrArg List.getLast? h
  simpa using hlast

end

end unwinding
