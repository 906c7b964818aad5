-- One tick of an `MSTicker`. `run_graph` goes depth first from the filters of the execution list,
-- and a filter that its inputs are not ready for is tried again by force at the end.
import ZonekeyMcu.Fault
import ZonekeyMcu.Lib.ListMoves
import Mathlib.Data.Fintype.Card
import Mathlib.Data.Fintype.EquivFin
import Mathlib.Logic.Relation
import Mathlib.Tactic.FinCases

open list_moves

namespace zonekey_mcu.ticker

section

variable {F : Type}

/-! ## A graph of filters -/

/-- A queue, from an output pin of `prev` to an input pin of `next`. -/
structure MSQueue (F : Type) where
  prev : F
  prev_pin : Nat
  next : F
  next_pin : Nat
  deriving DecidableEq

/-- The tables of the pins of each filter. A pin with no queue is `none`. -/
structure Graph (F : Type) where
  inputs : F → List (Option (MSQueue F))
  outputs : F → List (Option (MSQueue F))

/-- Both ends of each queue are the pins that it is in the tables of. -/
structure Graph.Consistent (g : Graph F) : Prop where
  outputs : ∀ f i (l : MSQueue F), (g.outputs f)[i]? = some (some l) →
    l.prev = f ∧ l.prev_pin = i ∧ (g.inputs l.next)[l.next_pin]? = some (some l)
  inputs : ∀ f i (l : MSQueue F), (g.inputs f)[i]? = some (some l) →
    l.next = f ∧ l.next_pin = i ∧ (g.outputs l.prev)[l.prev_pin]? = some (some l)

/-- `p` feeds an input of `f`. -/
def Graph.Feeds (g : Graph F) (p f : F) : Prop :=
  ∃ l : MSQueue F, some l ∈ g.inputs f ∧ l.prev = p

def Graph.Acyclic (g : Graph F) : Prop := ∀ f, ¬ Relation.TransGen g.Feeds f f

/-! ## A tick -/

/-- `called` are the filters that `call_process` was called for in this tick. -/
structure MSTicker (F : Type) where
  ticks : BitVec 32
  last_tick : F → BitVec 32
  called : List F
  unschedulable : List F

def filter_can_process (g : Graph F) (s : MSTicker F) (f : F) : Bool :=
  (g.inputs f).all fun l => l.all fun l => decide (s.last_tick l.prev = s.ticks)

/-- A loop that calls `visit` for each filter. -/
def run_each (visit : F → MSTicker F → Except Fault (MSTicker F)) :
    List F → MSTicker F → Except Fault (MSTicker F)
  | [], s => .ok s
  | f :: fs, s => do run_each visit fs (← visit f s)

/-- The filters behind the output pins that have a queue. -/
def next_filters (g : Graph F) (f : F) : List F :=
  (g.outputs f).filterMap fun l => l.map MSQueue.next

/-- `f->last_tick = s->ticks; call_process(f);` -/
def MSTicker.call [DecidableEq F] (s : MSTicker F) (f : F) : MSTicker F :=
  { s with last_tick := Function.update s.last_tick f s.ticks, called := s.called ++ [f] }

def run_graph [DecidableEq F] (g : Graph F) (force_schedule : Bool) :
    Nat → F → MSTicker F → Except Fault (MSTicker F)
  | 0, _, _ => .error .neverReturns
  | fuel + 1, f, s =>
    if s.last_tick f ≠ s.ticks then
      if filter_can_process g s f || force_schedule then
        run_each (run_graph g force_schedule fuel) (next_filters g f) (s.call f)
      else .ok { s with unschedulable := f :: s.unschedulable }
    else .ok s

def run_graphs [DecidableEq F] (g : Graph F) :
    Nat → List F → Bool → MSTicker F → Except Fault (MSTicker F)
  | 0, _, _, _ => .error .neverReturns
  | fuel + 1, execution_list, force_schedule, s => do
    let s ← run_each (run_graph g force_schedule fuel) execution_list
      { s with unschedulable := [] }
    if s.unschedulable ≠ [] then run_graphs g fuel s.unschedulable true s else return s

/-- The start of a tick. -/
def MSTicker.start (ticks : BitVec 32) (last_tick : F → BitVec 32) : MSTicker F where
  ticks := ticks
  last_tick := last_tick
  called := []
  unschedulable := []

/-! ## The property -/

/-- Each filter was called once, and in a graph without cycles behind the filters that feed
it. -/
structure Scheduled [DecidableEq F] (g : Graph F) (s : MSTicker F) : Prop where
  once : s.called.Nodup
  all : ∀ f, f ∈ s.called
  in_order : g.Acyclic → ∀ p f, g.Feeds p f → s.called.idxOf p < s.called.idxOf f

/-! ## What a part of a tick does -/

variable {g : Graph F} {s s' s'' : MSTicker F} {f p y : F} {force : Bool}

theorem Graph.Consistent.mem_next (hg : g.Consistent) : y ∈ next_filters g f ↔ g.Feeds f y := by
  unfold next_filters
  rw [List.mem_filterMap]
  constructor
  · rintro ⟨l, hl, hy⟩
    obtain ⟨l, rfl, rfl⟩ := Option.map_eq_some_iff.mp hy
    obtain ⟨i, hi⟩ := List.mem_iff_getElem?.mp hl
    obtain ⟨hprev, -, hin⟩ := hg.outputs f i l hi
    exact ⟨l, List.mem_of_getElem? hin, hprev⟩
  · rintro ⟨l, hl, rfl⟩
    obtain ⟨i, hi⟩ := List.mem_iff_getElem?.mp hl
    obtain ⟨hnext, -, hout⟩ := hg.inputs y i l hi
    exact ⟨some l, List.mem_of_getElem? hout, congrArg some hnext⟩

/-- The filters with the stamp of the tick are those that were called. -/
structure Stamped (s : MSTicker F) : Prop where
  stamp : ∀ f, s.last_tick f = s.ticks ↔ f ∈ s.called
  once : s.called.Nodup

theorem Stamped.can_process (h : Stamped s) :
    filter_can_process g s f = true ↔ ∀ p, g.Feeds p f → p ∈ s.called := by
  unfold filter_can_process
  rw [List.all_eq_true]
  constructor
  · rintro hall p ⟨l, hl, rfl⟩
    have hstamp := hall (some l) hl
    exact (h.stamp l.prev).mp (of_decide_eq_true hstamp)
  · intro hall l hl
    cases l with
    | none => rfl
    | some l => exact decide_eq_true ((h.stamp l.prev).mpr (hall l.prev ⟨l, hl, rfl⟩))

theorem Stamped.call [DecidableEq F] (h : Stamped s) (hf : f ∉ s.called) : Stamped (s.call f) where
  stamp y := by
    unfold MSTicker.call
    dsimp only
    rw [List.mem_append, List.mem_singleton, ← h.stamp y]
    by_cases hy : y = f
    · subst hy
      simp
    · simp [hy]
  once := by
    refine List.nodup_append.mpr ⟨h.once, List.nodup_singleton f, ?_⟩
    intro a ha b hb heq
    rw [List.mem_singleton.mp hb] at heq
    exact hf (heq ▸ ha)

/-- Each filter stands behind those that feed it. -/
def Ordered (g : Graph F) (log : List F) : Prop :=
  ∀ before f behind, log = before ++ f :: behind → ∀ p, g.Feeds p f → p ∈ before

theorem ordered_nil : Ordered g [] := by
  intro before f behind heq
  cases before <;> cases heq

theorem Ordered.snoc {log : List F} (h : Ordered g log) (hf : ∀ p, g.Feeds p f → p ∈ log) :
    Ordered g (log ++ [f]) := by
  intro before y behind heq p hp
  rcases List.eq_nil_or_concat behind with rfl | ⟨behind, z, rfl⟩
  · obtain ⟨rfl, hy⟩ := List.append_inj' heq rfl
    cases hy
    exact hf p hp
  · rw [List.concat_eq_append, ← List.cons_append, ← List.append_assoc] at heq
    obtain ⟨rfl, -⟩ := List.append_inj' heq rfl
    exact h before y behind rfl p hp

/-- From one moment of a tick to a later one. `closed` is about the filters behind a filter that
was called, and `late` about a filter whose last input became ready. -/
structure Later (g : Graph F) (force : Bool) (s s' : MSTicker F) : Prop where
  stamped : Stamped s'
  called : s.called <+: s'.called
  waiting : ∀ f ∈ s.unschedulable, f ∈ s'.unschedulable
  closed : ∀ f ∈ s'.called, f ∉ s.called → ∀ y, g.Feeds f y →
    y ∈ s'.called ∨ y ∈ s'.unschedulable
  late : ∀ y, (∀ p, g.Feeds p y → p ∈ s'.called) → (∃ p, g.Feeds p y ∧ p ∉ s.called) →
    y ∈ s'.called
  ordered : force = false → Ordered g s.called → Ordered g s'.called
  forced : force = true → s'.unschedulable = s.unschedulable

theorem Later.mem (h : Later g force s s') (hf : f ∈ s.called) : f ∈ s'.called :=
  h.called.subset hf

theorem Stamped.later (h : Stamped s) : Later g force s s where
  stamped := h
  called := List.prefix_refl _
  waiting _ hf := hf
  closed _ hf hnot := absurd hf hnot
  late y hall hsome := by
    obtain ⟨p, hp, hnot⟩ := hsome
    exact absurd (hall p hp) hnot
  ordered _ h := h
  forced _ := rfl

theorem Later.trans (h : Later g force s s') (h' : Later g force s' s'') :
    Later g force s s'' where
  stamped := h'.stamped
  called := h.called.trans h'.called
  waiting f hf := h'.waiting f (h.waiting f hf)
  closed f hf hnot y hy := by
    by_cases hf' : f ∈ s'.called
    · rcases h.closed f hf' hnot y hy with hc | hu
      · exact .inl (h'.mem hc)
      · exact .inr (h'.waiting y hu)
    · exact h'.closed f hf hf' y hy
  late y hall hsome := by
    by_cases hall' : ∀ p, g.Feeds p y → p ∈ s'.called
    · exact h'.mem (h.late y hall' hsome)
    · push Not at hall'
      exact h'.late y hall hall'
  ordered hforce hord := h'.ordered hforce (h.ordered hforce hord)
  forced hforce := (h'.forced hforce).trans (h.forced hforce)

/-- What a visit of `f` leaves: it was called, or it waits and had no reason to be called. -/
structure Visited (g : Graph F) (force : Bool) (s s' : MSTicker F) (f : F) : Prop where
  seen : f ∈ s'.called ∨ f ∈ s'.unschedulable
  ready : (force = true ∨ ∀ p, g.Feeds p f → p ∈ s.called) → f ∈ s'.called

theorem Visited.after (h : Visited g force s s' f) (h' : Later g force s' s'') :
    Visited g force s s'' f where
  seen := h.seen.imp h'.mem (h'.waiting f)
  ready hr := h'.mem (h.ready hr)

theorem Visited.before (h : Visited g force s' s'' f) (h' : Later g force s s') :
    Visited g force s s'' f where
  seen := h.seen
  ready hr := h.ready (hr.imp id fun hall p hp => h'.mem (hall p hp))

/-- A loop of visits, from the spec of one visit. -/
theorem run_each_spec {visit : F → MSTicker F → Except Fault (MSTicker F)} {I : MSTicker F → Prop}
    (hvisit : ∀ f s, Stamped s → I s →
      ∃ s', visit f s = .ok s' ∧ Later g force s s' ∧ Visited g force s s' f)
    (hkeep : ∀ s s', I s → Later g force s s' → I s') (fs : List F) (h : Stamped s) (hI : I s) :
    ∃ s', run_each visit fs s = .ok s' ∧ Later g force s s' ∧
      ∀ f ∈ fs, Visited g force s s' f := by
  induction fs generalizing s with
  | nil => exact ⟨s, rfl, h.later, fun f hf => absurd hf List.not_mem_nil⟩
  | cons f fs ih =>
    obtain ⟨s', hrun, hlater, hseen⟩ := hvisit f s h hI
    obtain ⟨s'', hrest, hlater', hseen'⟩ := ih hlater.stamped (hkeep s s' hI hlater)
    refine ⟨s'', ?_, hlater.trans hlater', ?_⟩
    · simp only [run_each, hrun, ok_bind, hrest]
    · intro y hy
      rcases List.mem_cons.mp hy with rfl | hy
      · exact hseen.after hlater'
      · exact (hseen' y hy).before hlater

/-- In such an order, what feeds a filter stands before it. -/
theorem Ordered.idxOf_lt [DecidableEq F] {log : List F} (h : Ordered g log) (hf : f ∈ log)
    (hp : g.Feeds p f) : log.idxOf p < log.idxOf f := by
  obtain ⟨before, behind, hsplit, -, hlen⟩ := split_first hf
  have hmem : p ∈ before := h before f behind hsplit p hp
  calc log.idxOf p = before.idxOf p := by rw [hsplit, List.idxOf_append_of_mem hmem]
    _ < before.length := List.idxOf_lt_length_iff.mpr hmem
    _ = log.idxOf f := hlen

/-- The fuel is more than the filters that were not called yet. -/
def Enough [Fintype F] (fuel : Nat) (s : MSTicker F) : Prop :=
  Fintype.card F < fuel + s.called.length

theorem Enough.later [Fintype F] {fuel : Nat} (h : Enough fuel s) (h' : Later g force s s') :
    Enough fuel s' := by
  have hlen := h'.called.length_le
  unfold Enough at *
  omega

theorem start_stamped {ticks : BitVec 32} {last_tick : F → BitVec 32}
    (hfresh : ∀ f, last_tick f ≠ ticks) : Stamped (MSTicker.start ticks last_tick) where
  stamp f := ⟨fun heq => absurd heq (hfresh f), fun hmem => absurd hmem List.not_mem_nil⟩
  once := List.nodup_nil

/-- Without cycles, the first pass calls each filter: the last one that feeds it finds it
ready. -/
theorem first_pass_calls [Finite F] (hacyclic : g.Acyclic) {fs : List F}
    (hreach : ∀ f, ∃ source ∈ fs, Relation.ReflTransGen g.Feeds source f)
    (hnew : s.called = []) (hlater : Later g false s s')
    (hseen : ∀ f ∈ fs, Visited g false s s' f) (f : F) : f ∈ s'.called := by
  have hwf : WellFounded (Relation.TransGen g.Feeds) :=
    @Finite.wellFounded_of_trans_of_irrefl F _ _ _ ⟨hacyclic⟩
  induction f using hwf.induction with
  | _ f ih =>
    have hfed : ∀ p, g.Feeds p f → p ∈ s'.called := fun p hp => ih p (.single hp)
    by_cases hsome : ∃ p, g.Feeds p f
    · obtain ⟨p, hp⟩ := hsome
      exact hlater.late f hfed ⟨p, hp, by rw [hnew]; exact List.not_mem_nil⟩
    · -- No filter feeds it, so it is in the execution list.
      obtain ⟨source, hsource, hpath⟩ := hreach f
      have hlist : f ∈ fs := by
        rcases Relation.ReflTransGen.cases_tail hpath with heq | ⟨p, -, hp⟩
        · exact heq ▸ hsource
        · exact absurd ⟨p, hp⟩ hsome
      exact (hseen f hlist).ready (.inr fun p hp => absurd ⟨p, hp⟩ hsome)

/-- Where every filter was called, nothing more is. -/
theorem Later.adds_nothing (hlater : Later g force s s') (hall : ∀ f, f ∈ s.called) :
    s'.called = s.called := by
  obtain ⟨more, hmore⟩ := hlater.called
  have hnil : more = [] := by
    apply List.eq_nil_iff_forall_not_mem.mpr
    intro y hy
    have honce := hlater.stamped.once
    rw [← hmore] at honce
    exact (List.disjoint_of_nodup_append honce) (hall y) hy
  rw [← hmore, hnil, List.append_nil]

/-- After both passes, each filter that the list reaches was called. -/
theorem both_passes_call {fs : List F} {start : MSTicker F} (hnew : start.called = [])
    (hlater : Later g false start s) (hseen : ∀ f ∈ fs, Visited g false start s f)
    (hlater' : Later g true { s with unschedulable := [] } s') (hnone : s'.unschedulable = [])
    (hforced : ∀ f ∈ s.unschedulable, f ∈ s'.called) {source : F} (hsource : source ∈ fs)
    (hpath : Relation.ReflTransGen g.Feeds source f) : f ∈ s'.called := by
  -- By induction on the path from the list.
  induction hpath with
  | refl =>
    rcases (hseen source hsource).seen with hc | hu
    · exact hlater'.mem hc
    · exact hforced source hu
  | @tail f y _ hfeeds ih =>
    by_cases hf : f ∈ s.called
    · have hnot : f ∉ start.called := by
        rw [hnew]
        exact List.not_mem_nil
      rcases hlater.closed f hf hnot y hfeeds with hc | hu
      · exact hlater'.mem hc
      · exact hforced y hu
    · rcases hlater'.closed f ih hf y hfeeds with hc | hu
      · exact hc
      · rw [hnone] at hu
        exact absurd hu List.not_mem_nil

end

/-! ## The visits -/

section

variable {F : Type} [DecidableEq F] {g : Graph F} {s s' : MSTicker F} {f : F} {force : Bool}

/-- The call of a filter that may be called, and the visits of the filters behind it. -/
theorem Later.of_call (hg : g.Consistent)
    (hready : force = false → ∀ p, g.Feeds p f → p ∈ s.called)
    (hlater : Later g force (s.call f) s')
    (hnext : ∀ y ∈ next_filters g f, Visited g force (s.call f) s' y) :
    Later g force s s' where
  stamped := hlater.stamped
  called := (List.prefix_append _ _).trans hlater.called
  waiting := hlater.waiting
  closed x hx hnot y hy := by
    by_cases hxf : x = f
    · subst hxf
      exact (hnext y (hg.mem_next.mpr hy)).seen
    · refine hlater.closed x hx (fun hmem => ?_) y hy
      rcases List.mem_append.mp hmem with hmem | hmem
      · exact hnot hmem
      · exact hxf (List.mem_singleton.mp hmem)
  late y hall hsome := by
    by_cases hall' : ∀ p, g.Feeds p y → p ∈ (s.call f).called
    · -- The filter that was missing is `f`.
      obtain ⟨p, hp, hnot⟩ := hsome
      have hpf : p = f := by
        rcases List.mem_append.mp (hall' p hp) with hmem | hmem
        · exact absurd hmem hnot
        · exact List.mem_singleton.mp hmem
      subst hpf
      exact (hnext y (hg.mem_next.mpr hp)).ready (.inr hall')
    · push Not at hall'
      exact hlater.late y hall hall'
  ordered hforce hord := hlater.ordered hforce (hord.snoc (hready hforce))
  forced := hlater.forced

variable [Fintype F]

theorem run_graph_spec (hg : g.Consistent) (force : Bool) {fuel : Nat} (f : F) (h : Stamped s)
    (hfuel : Enough fuel s) :
    ∃ s', run_graph g force fuel f s = .ok s' ∧ Later g force s s' ∧ Visited g force s s' f := by
  induction fuel generalizing f s with
  | zero =>
    have hcard := h.once.length_le_card
    unfold Enough at hfuel
    omega
  | succ fuel ih =>
    unfold run_graph
    by_cases hcalled : f ∈ s.called
    · have hstamp := (h.stamp f).mpr hcalled
      refine ⟨s, if_neg (not_not.mpr hstamp), h.later, .inl hcalled, fun _ => hcalled⟩
    · have hstamp : s.last_tick f ≠ s.ticks := fun heq => hcalled ((h.stamp f).mp heq)
      rw [if_pos hstamp]
      by_cases hmay : (filter_can_process g s f || force) = true
      · rw [if_pos hmay]
        have hstart : Enough fuel (s.call f) := by
          unfold Enough MSTicker.call at *
          rw [List.length_append, List.length_singleton]
          omega
        obtain ⟨s', hrun, hlater, hnext⟩ := run_each_spec (I := Enough fuel)
          (fun y t ht hI => ih y ht hI)
          (fun t t' hI (hl : Later g force t t') => hI.later hl) (next_filters g f)
          (h.call hcalled) hstart
        have hready : force = false → ∀ p, g.Feeds p f → p ∈ s.called := by
          intro hforce
          rw [hforce, Bool.or_false] at hmay
          exact h.can_process.mp hmay
        have hmem : f ∈ s'.called :=
          hlater.mem (List.mem_append_right _ (List.mem_singleton_self f))
        exact ⟨s', hrun, Later.of_call hg hready hlater hnext, .inl hmem, fun _ => hmem⟩
      · rw [if_neg hmay]
        rw [Bool.not_eq_true, Bool.or_eq_false_iff] at hmay
        refine ⟨_, rfl, ?_, .inr List.mem_cons_self, ?_⟩
        · exact
            { h.later with
              stamped := ⟨h.stamp, h.once⟩
              waiting := fun y hy => List.mem_cons_of_mem f hy
              closed := fun y hy hnot => absurd hy hnot
              forced := fun hforce => by rw [hmay.2] at hforce; cases hforce }
        · rintro (hforce | hall)
          · rw [hmay.2] at hforce
            cases hforce
          · have := h.can_process.mpr hall
            rw [hmay.1] at this
            cases this

/-! ## The two passes -/

/-- A pass over a list of filters. -/
theorem pass_spec (hg : g.Consistent) (force : Bool) {fuel : Nat} (fs : List F) (h : Stamped s)
    (hfuel : Enough fuel s) :
    ∃ s', run_each (run_graph g force fuel) fs { s with unschedulable := [] } = .ok s' ∧
      Later g force { s with unschedulable := [] } s' ∧
      ∀ f ∈ fs, Visited g force { s with unschedulable := [] } s' f :=
  run_each_spec (I := Enough fuel) (fun f _ ht hI => run_graph_spec hg force f ht hI)
    (fun _ _ hI hl => hI.later hl) fs ⟨h.stamp, h.once⟩ hfuel

/-- The second pass calls each filter that waits. -/
theorem second_pass (hg : g.Consistent) {fuel : Nat} (h : Stamped s) (hfuel : Enough fuel s) :
    ∃ s', (if s.unschedulable ≠ [] then run_graphs g (fuel + 1) s.unschedulable true s
        else .ok s) = .ok s' ∧
      Later g true { s with unschedulable := [] } s' ∧ s'.unschedulable = [] ∧
      ∀ f ∈ s.unschedulable, f ∈ s'.called := by
  by_cases hnone : s.unschedulable = []
  · have hsame : { s with unschedulable := [] } = s := by rw [← hnone]
    refine ⟨s, by rw [if_neg (not_not.mpr hnone)], ?_, hnone, ?_⟩
    · rw [hsame]
      exact h.later
    · rw [hnone]
      exact fun f hf => absurd hf List.not_mem_nil
  · obtain ⟨s', hrun, hlater, hseen⟩ := pass_spec hg true s.unschedulable h hfuel
    have hwait : s'.unschedulable = [] := hlater.forced rfl
    refine ⟨s', ?_, hlater, hwait, fun f hf => (hseen f hf).ready (.inl rfl)⟩
    rw [if_pos hnone, run_graphs, hrun]
    simp [hwait]

end

/-! ## The law -/

/-- A tick ends, and each filter that the execution list reaches is called once, in a graph
without cycles behind all filters that feed it. -/
theorem each_filter_is_called_once_behind_those_that_feed_it {F : Type} [DecidableEq F]
    [Fintype F] {g : Graph F} (hg : g.Consistent) {execution_list : List F}
    (hreach : ∀ f, ∃ source ∈ execution_list, Relation.ReflTransGen g.Feeds source f)
    {ticks : BitVec 32} {last_tick : F → BitVec 32} (hfresh : ∀ f, last_tick f ≠ ticks)
    (n : Nat) :
    ∃ s, run_graphs g (Fintype.card F + 3 + n) execution_list false
        (MSTicker.start ticks last_tick) = .ok s ∧ Scheduled g s := by
  have hfuel : Enough (Fintype.card F + 2 + n) (MSTicker.start ticks last_tick) := by
    unfold Enough
    omega
  obtain ⟨s, hfirst, hlater, hseen⟩ :=
    pass_spec hg false execution_list (start_stamped hfresh) hfuel
  have henough : Enough (Fintype.card F + 1 + n) s := by
    unfold Enough
    omega
  obtain ⟨s', hsecond, hlater', hnone, hforced⟩ := second_pass hg hlater.stamped henough
  refine ⟨s', ?_, hlater'.stamped.once, fun f => ?_, fun hacyclic p f hp => ?_⟩
  · rw [show Fintype.card F + 3 + n = Fintype.card F + 2 + n + 1 by omega, run_graphs, hfirst]
    rw [show Fintype.card F + 1 + n + 1 = Fintype.card F + 2 + n by omega] at hsecond
    exact hsecond
  · obtain ⟨source, hsource, hpath⟩ := hreach f
    exact both_passes_call rfl hlater hseen hlater' hnone hforced hsource hpath
  · have hall := first_pass_calls hacyclic hreach rfl hlater hseen
    have hsame : s'.called = s.called := hlater'.adds_nothing hall
    rw [hsame]
    exact (hlater.ordered rfl ordered_nil).idxOf_lt (hall f) hp

/-! ## Three filters -/

/-- Filter 0 feeds 2 and 1, in this order, and 1 feeds 2. -/
def three : Graph (Fin 3) where
  inputs
    | 0 => []
    | 1 => [some ⟨0, 1, 1, 0⟩]
    | 2 => [some ⟨0, 0, 2, 0⟩, some ⟨1, 0, 2, 1⟩]
  outputs
    | 0 => [some ⟨0, 0, 2, 0⟩, some ⟨0, 1, 1, 0⟩]
    | 1 => [some ⟨1, 0, 2, 1⟩]
    | 2 => [none]

theorem three_consistent : three.Consistent where
  outputs f i l h := by
    fin_cases f <;> rcases i with _ | _ | i <;> simp [three] at h <;> subst h <;> simp [three]
  inputs f i l h := by
    fin_cases f <;> rcases i with _ | _ | i <;> simp [three] at h <;> subst h <;> simp [three]

theorem three_reached (f : Fin 3) :
    ∃ source ∈ [(0 : Fin 3)], Relation.ReflTransGen three.Feeds source f := by
  refine ⟨0, List.mem_cons_self, ?_⟩
  fin_cases f
  · exact .refl
  · exact .single ⟨⟨0, 1, 1, 0⟩, List.mem_cons_self, rfl⟩
  · exact .single ⟨⟨0, 0, 2, 0⟩, List.mem_cons_self, rfl⟩

/-- In the first tick of these filters. -/
theorem each_filter_is_called_once_behind_those_that_feed_it_example :
    ∃ s, run_graphs three (Fintype.card (Fin 3) + 3 + 0) [0] false
        (MSTicker.start 1#32 fun _ => 0#32) = .ok s ∧ Scheduled three s :=
  each_filter_is_called_once_behind_those_that_feed_it three_consistent three_reached
    (fun _ => by decide) 0

/-- Filter 2 waits at first, and is called behind filter 1. -/
example : (run_graphs three 6 [0] false (MSTicker.start 1#32 fun _ => 0#32)).map
    (fun s => (s.called, s.unschedulable)) = .ok ([0, 1, 2], []) := by decide +kernel

end zonekey_mcu.ticker
