-- Runs of a step function that can fault. The rules here carry what one step
-- keeps to every state of a run, of any length.
import Mathlib.Tactic.Common

namespace runs

variable {σ α ε : Type}

/-- The state after the actions, in order, or the first fault. -/
def run (step : σ → α → Except ε σ) : σ → List α → Except ε σ
  | s, [] => .ok s
  | s, a :: as => match step s a with
    | .ok t => run step t as
    | .error e => .error e

/-- No action faults, and `P` holds at the start and after each action. -/
def Along (step : σ → α → Except ε σ) (P : σ → Prop) : σ → List α → Prop
  | s, [] => P s
  | s, a :: as => P s ∧ ∃ t, step s a = .ok t ∧ Along step P t as

/-- Each action meets `C` in the state before it. -/
def Meets (step : σ → α → Except ε σ) (C : σ → α → Prop) : σ → List α → Prop
  | _, [] => True
  | s, a :: as => C s a ∧ ∀ t, step s a = .ok t → Meets step C t as

/-- A state that some run from `start` ends in. -/
def Reached (step : σ → α → Except ε σ) (start s : σ) : Prop :=
  ∃ as, run step start as = .ok s

section

variable {step : σ → α → Except ε σ} {I P : σ → Prop} {C : σ → α → Prop}

@[simp] theorem run_nil (s : σ) : run step s [] = .ok s := rfl

theorem run_cons_ok {s t : σ} {a : α} (as : List α) (h : step s a = .ok t) :
    run step s (a :: as) = run step t as := by
  simp only [run, h]

/-- A run that ends took its first step. -/
theorem run_cons_inv {s u : σ} {a : α} {as : List α} (h : run step s (a :: as) = .ok u) :
    ∃ t, step s a = .ok t ∧ run step t as = .ok u := by
  cases hs : step s a with
  | ok t => exact ⟨t, rfl, by rwa [run_cons_ok as hs] at h⟩
  | error e => simp [run, hs] at h

theorem run_append {s t : σ} {as : List α} (bs : List α) (h : run step s as = .ok t) :
    run step s (as ++ bs) = run step t bs := by
  induction as generalizing s with
  | nil => cases h; rfl
  | cons a as ih =>
    obtain ⟨u, hu, hrest⟩ := run_cons_inv h
    rw [List.cons_append, run_cons_ok _ hu]
    exact ih hrest

/-- A run that ends reached the state between any two parts of its actions. -/
theorem run_append_inv {s u : σ} {as bs : List α} (h : run step s (as ++ bs) = .ok u) :
    ∃ t, run step s as = .ok t ∧ run step t bs = .ok u := by
  induction as generalizing s with
  | nil => exact ⟨s, rfl, h⟩
  | cons a as ih =>
    obtain ⟨v, hv, hrest⟩ := run_cons_inv h
    rw [run_cons_ok as hv]
    exact ih hrest

theorem meets_nil (s : σ) : Meets step C s [] := trivial

theorem meets_cons {s t : σ} {a : α} {as : List α} (hc : C s a) (h : step s a = .ok t)
    (hrest : Meets step C t as) : Meets step C s (a :: as) := by
  refine ⟨hc, fun u hu => ?_⟩
  rw [h] at hu
  cases hu
  exact hrest

/-- A condition that the actions meet in every state. -/
theorem meets_of_forall {s : σ} {as : List α} (h : ∀ a ∈ as, ∀ t, C t a) : Meets step C s as := by
  induction as generalizing s with
  | nil => trivial
  | cons a as ih =>
    exact ⟨h a List.mem_cons_self s, fun _ _ => ih fun b hb => h b (List.mem_cons_of_mem a hb)⟩

/-- A condition on the actions alone, when each step that meets it goes well. -/
theorem meets_iff_forall {D : α → Prop} (hstep : ∀ s a, I s → D a → ∃ t, step s a = .ok t ∧ I t)
    {s : σ} (as : List α) (hs : I s) : Meets step (fun _ a => D a) s as ↔ ∀ a ∈ as, D a := by
  induction as generalizing s with
  | nil => simp [Meets]
  | cons a as ih =>
    constructor
    · rintro ⟨ha, hrest⟩
      obtain ⟨t, ht, hIt⟩ := hstep s a hs ha
      simpa using ⟨ha, (ih hIt).mp (hrest t ht)⟩
    · intro h
      exact meets_of_forall fun b hb _ => h b hb

/-- What holds all along a run holds at its end. -/
theorem along_end {s t : σ} {as : List α} (h : Along step P s as) (hr : run step s as = .ok t) :
    P t := by
  induction as generalizing s with
  | nil =>
    cases hr
    exact h
  | cons a as ih =>
    obtain ⟨-, u, hu, hrest⟩ := h
    rw [run_cons_ok as hu] at hr
    exact ih hrest hr

theorem along_ends {s : σ} {as : List α} (h : Along step P s as) : ∃ t, run step s as = .ok t := by
  induction as generalizing s with
  | nil => exact ⟨s, rfl⟩
  | cons a as ih =>
    obtain ⟨-, u, hu, hrest⟩ := h
    obtain ⟨t, ht⟩ := ih hrest
    exact ⟨t, by rw [run_cons_ok as hu, ht]⟩

/-- A condition that follows from another in every state of a run. -/
theorem meets_imp {C' : σ → α → Prop} (h : ∀ s a, I s → C s a → C' s a)
    (hkeep : ∀ s a t, I s → C s a → step s a = .ok t → I t) {s : σ} (as : List α) (hs : I s)
    (hc : Meets step C s as) : Meets step C' s as := by
  induction as generalizing s with
  | nil => trivial
  | cons a as ih =>
    exact ⟨h s a hs hc.1, fun t ht => ih (hkeep s a t hs hc.1 ht) (hc.2 t ht)⟩

theorem meets_upto {s : σ} {as done : List α} (h : Meets step C s as) (hdone : done <+: as) :
    Meets step C s done := by
  induction as generalizing s done with
  | nil =>
    rw [List.prefix_nil.mp hdone]
    trivial
  | cons a as ih =>
    cases done with
    | nil => trivial
    | cons b done =>
      obtain ⟨rfl, hrest⟩ := List.cons_prefix_cons.mp hdone
      exact ⟨h.1, fun t ht => ih (h.2 t ht) hrest⟩

/-- Two conditions that say the same in every state of a run. -/
theorem meets_congr {C' : σ → α → Prop} (h : ∀ s a, I s → (C s a ↔ C' s a))
    (hkeep : ∀ s a t, I s → C s a → step s a = .ok t → I t) {s : σ} (as : List α) (hs : I s) :
    Meets step C s as ↔ Meets step C' s as := by
  induction as generalizing s with
  | nil => exact Iff.rfl
  | cons a as ih =>
    constructor
    · rintro ⟨hc, hrest⟩
      exact ⟨(h s a hs).mp hc, fun t ht => (ih (hkeep s a t hs hc ht)).mp (hrest t ht)⟩
    · rintro ⟨hc', hrest⟩
      have hc := (h s a hs).mpr hc'
      exact ⟨hc, fun t ht => (ih (hkeep s a t hs hc ht)).mpr (hrest t ht)⟩

/-! ## From one step to a run -/

/-- What each step keeps under its condition, a run keeps whose actions all
meet the condition. -/
theorem run_keeps_of_meets
    (hstep : ∀ s a t, I s → C s a → step s a = .ok t → I t) {s t : σ} {as : List α}
    (hs : I s) (hc : Meets step C s as) (hr : run step s as = .ok t) : I t := by
  induction as generalizing s with
  | nil => cases hr; exact hs
  | cons a as ih =>
    obtain ⟨u, hu, hrest⟩ := run_cons_inv hr
    exact ih (hstep s a u hs hc.1 hu) (hc.2 u hu) hrest

/-- What each step keeps, each run keeps. -/
theorem run_keeps (hstep : ∀ s a t, I s → step s a = .ok t → I t) {s t : σ} {as : List α}
    (hs : I s) (hr : run step s as = .ok t) : I t := by
  induction as generalizing s with
  | nil => cases hr; exact hs
  | cons a as ih =>
    obtain ⟨u, hu, hrest⟩ := run_cons_inv hr
    exact ih (hstep s a u hs hu) hrest

/-- When each step goes well and keeps `I`, each run does. -/
theorem run_goes_well (hstep : ∀ s a, I s → ∃ t, step s a = .ok t ∧ I t) {s : σ} (hs : I s)
    (as : List α) : ∃ t, run step s as = .ok t ∧ I t := by
  induction as generalizing s with
  | nil => exact ⟨s, rfl, hs⟩
  | cons a as ih =>
    obtain ⟨u, hu, hI⟩ := hstep s a hs
    rw [run_cons_ok as hu]
    exact ih hI

/-- What each step keeps holds all along a run that ends. -/
theorem along_of_run (hIP : ∀ s, I s → P s) (hstep : ∀ s a t, I s → step s a = .ok t → I t)
    {s t : σ} {as : List α} (hs : I s) (hr : run step s as = .ok t) : Along step P s as := by
  induction as generalizing s with
  | nil => exact hIP s hs
  | cons a as ih =>
    obtain ⟨u, hu, hrest⟩ := run_cons_inv hr
    exact ⟨hIP s hs, u, hu, ih (hstep s a u hs hu) hrest⟩

theorem reached_keeps (hstep : ∀ s a t, I s → step s a = .ok t → I t) {s t : σ}
    (hs : I s) (hr : Reached step s t) : I t := by
  obtain ⟨as, has⟩ := hr
  exact run_keeps hstep hs has

/-- What is known of a state and of the actions before it. -/
theorem run_keeps_log {L : List α → σ → Prop} {D : α → Prop}
    (hstep : ∀ done s a t, L done s → D a → step s a = .ok t → L (done ++ [a]) t)
    {done as : List α} {s t : σ} (hs : L done s) (hd : ∀ a ∈ as, D a)
    (hr : run step s as = .ok t) : L (done ++ as) t := by
  induction as generalizing done s with
  | nil =>
    cases hr
    rwa [List.append_nil]
  | cons a as ih =>
    obtain ⟨u, hu, hrest⟩ := run_cons_inv hr
    have hnext := hstep done s a u hs (hd a List.mem_cons_self) hu
    have hall := ih hnext (fun b hb => hd b (List.mem_cons_of_mem a hb)) hrest
    rwa [List.append_assoc] at hall

/-- A run stops with no fault but those in `E` exactly when every action meets `C`. A step that
meets `C` has no other fault, and a step that does not has one. -/
theorem stops_iff_meets {D : α → Prop} {E : ε → Prop}
    (hkeep : ∀ s a t, I s → D a → step s a = .ok t → I t)
    (hgood : ∀ s a e, I s → D a → C s a → step s a = .error e → E e)
    (hbad : ∀ s a, I s → D a → ¬ C s a → ∃ e, step s a = .error e ∧ ¬ E e) {s : σ}
    (as : List α) (hs : I s) (hd : ∀ a ∈ as, D a) :
    (∀ e, run step s as = .error e → E e) ↔ Meets step C s as := by
  induction as generalizing s with
  | nil => simp [Meets]
  | cons a as ih =>
    have ha := hd a List.mem_cons_self
    have has := fun b hb => hd b (List.mem_cons_of_mem a hb)
    cases hstep : step s a with
    | ok t =>
      rw [run_cons_ok as hstep]
      have hrest := ih (hkeep s a t hs ha hstep) has
      have hc : C s a := by
        by_contra hc
        obtain ⟨e, he, -⟩ := hbad s a hs ha hc
        rw [hstep] at he
        cases he
      constructor
      · intro h
        exact meets_cons hc hstep (hrest.mp h)
      · intro h
        exact hrest.mpr (h.2 t hstep)
    | error e =>
      have hrun : run step s (a :: as) = .error e := by simp only [run, hstep]
      rw [hrun]
      constructor
      · intro h
        refine ⟨?_, fun t ht => by rw [hstep] at ht; cases ht⟩
        by_contra hc
        obtain ⟨e', he', hnot⟩ := hbad s a hs ha hc
        rw [hstep] at he'
        cases he'
        exact hnot (h e rfl)
      · intro h e' he'
        cases he'
        exact hgood s a e hs ha h.1 hstep

/-- A run ends exactly when every action meets `C`, if a step that meets `C` goes well and a step
that does not has a fault. -/
theorem ends_iff_meets (hgood : ∀ s a, I s → C s a → ∃ t, step s a = .ok t ∧ I t)
    (hbad : ∀ s a, I s → ¬ C s a → ∃ e, step s a = .error e) {s : σ} (as : List α) (hs : I s) :
    (∃ t, run step s as = .ok t) ↔ Meets step C s as := by
  induction as generalizing s with
  | nil => simp [Meets]
  | cons a as ih =>
    by_cases hc : C s a
    · obtain ⟨u, hu, hI⟩ := hgood s a hs hc
      rw [run_cons_ok as hu, ih hI]
      exact ⟨fun h => meets_cons hc hu h, fun h => h.2 u hu⟩
    · obtain ⟨e, he⟩ := hbad s a hs hc
      have hrun : run step s (a :: as) = .error e := by simp only [run, he]
      rw [hrun]
      exact ⟨fun ⟨t, ht⟩ => (by cases ht), fun h => absurd h.1 hc⟩

/-- A run ends with `P` exactly when `P` holds at its start and every action meets `C`, if it is
so for one step. -/
theorem run_iff_forall {C : α → Prop}
    (hstep : ∀ s a, (∃ t, step s a = .ok t ∧ P t) ↔ P s ∧ C a) (s : σ) (as : List α) :
    (∃ t, run step s as = .ok t ∧ P t) ↔ P s ∧ ∀ a ∈ as, C a := by
  induction as generalizing s with
  | nil => simp
  | cons a as ih =>
    rw [List.forall_mem_cons]
    constructor
    · rintro ⟨t, ht, hP⟩
      obtain ⟨u, hu, hrest⟩ := run_cons_inv ht
      obtain ⟨hPu, hall⟩ := (ih u).mp ⟨t, hrest, hP⟩
      obtain ⟨hPs, ha⟩ := (hstep s a).mp ⟨u, hu, hPu⟩
      exact ⟨hPs, ha, hall⟩
    · rintro ⟨hPs, ha, hall⟩
      obtain ⟨u, hu, hPu⟩ := (hstep s a).mpr ⟨hPs, ha⟩
      obtain ⟨t, ht, hP⟩ := (ih u).mpr ⟨hPu, hall⟩
      exact ⟨t, by rwa [run_cons_ok as hu], hP⟩

/-- The exact condition for a law, in runs whose actions all meet `D`. The invariant `I`
gives the law `P`. A step that meets `C` keeps `I`, and a step that does not breaks `P` at
once. So `P` holds all along a run exactly when every action meets `C`. -/
theorem along_iff_meets_of_meets {D : σ → α → Prop} (hIP : ∀ s, I s → P s)
    (hgood : ∀ s a, I s → D s a → C s a → ∃ t, step s a = .ok t ∧ I t)
    (hbad : ∀ s a t, I s → D s a → step s a = .ok t → P t → C s a) {s : σ} (as : List α)
    (hs : I s) (hd : Meets step D s as) : Along step P s as ↔ Meets step C s as := by
  induction as generalizing s with
  | nil => simpa [Along, Meets] using hIP s hs
  | cons a as ih =>
    constructor
    · rintro ⟨_, t, ht, hrest⟩
      have hPt : P t := by
        cases as with
        | nil => exact hrest
        | cons b bs => exact hrest.1
      have hc := hbad s a t hs hd.1 ht hPt
      obtain ⟨u, hu, hIu⟩ := hgood s a hs hd.1 hc
      have htu : t = u := by rw [ht] at hu; cases hu; rfl
      subst htu
      refine ⟨hc, fun v hv => ?_⟩
      have hvt : t = v := by rw [ht] at hv; cases hv; rfl
      exact hvt ▸ (ih hIu (hd.2 t ht)).mp hrest
    · rintro ⟨hc, hrest⟩
      obtain ⟨t, ht, hIt⟩ := hgood s a hs hd.1 hc
      exact ⟨hIP s hs, t, ht, (ih hIt (hd.2 t ht)).mpr (hrest t ht)⟩

/-- The exact condition for a law in the states that a run reaches before its first fault. -/
theorem reached_iff_meets (hIP : ∀ s, I s → P s)
    (hgood : ∀ s a t, I s → C s a → step s a = .ok t → I t)
    (hbad : ∀ s a, I s → ¬ C s a → ∃ t, step s a = .ok t ∧ ¬ P t) {s : σ} (as : List α)
    (hs : I s) :
    (∀ done t, done <+: as → run step s done = .ok t → P t) ↔ Meets step C s as := by
  induction as generalizing s with
  | nil =>
    constructor
    · intro _
      trivial
    · intro _ done t hdone hrun
      rw [List.prefix_nil.mp hdone] at hrun
      cases hrun
      exact hIP s hs
  | cons a as ih =>
    constructor
    · intro h
      have hc : C s a := by
        by_contra hc
        obtain ⟨t, ht, hnot⟩ := hbad s a hs hc
        exact hnot (h [a] t ⟨as, rfl⟩ (run_cons_ok [] ht))
      refine ⟨hc, fun t ht => ?_⟩
      apply (ih (hgood s a t hs hc ht)).mp
      intro done u hdone hrun
      apply h (a :: done) u ((List.prefix_cons_inj a).mpr hdone)
      rwa [run_cons_ok done ht]
    · rintro ⟨hc, hrest⟩ done u hdone hrun
      cases done with
      | nil =>
        cases hrun
        exact hIP s hs
      | cons b done =>
        obtain ⟨rfl, hprefix⟩ := List.cons_prefix_cons.mp hdone
        obtain ⟨t, ht, hu⟩ := run_cons_inv hrun
        exact (ih (hgood s b t hs hc ht)).mpr (hrest t ht) done u hprefix hu

/-- The exact condition for a law in all runs. -/
theorem along_iff_meets (hIP : ∀ s, I s → P s)
    (hgood : ∀ s a, I s → C s a → ∃ t, step s a = .ok t ∧ I t)
    (hbad : ∀ s a t, I s → step s a = .ok t → P t → C s a) {s : σ} (as : List α) (hs : I s) :
    Along step P s as ↔ Meets step C s as :=
  along_iff_meets_of_meets hIP (fun s a hI _ => hgood s a hI) (fun s a t hI _ => hbad s a t hI)
    as hs (meets_of_forall (C := fun _ _ => True) fun _ _ _ => trivial)

end

end runs
