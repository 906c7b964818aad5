-- The life of an `MSTicker`: filters are attached and detached together with all that are linked
-- to them, and each tick runs the tasks of the tick before and then the graphs.
import ZonekeyMcu.Lib.DepthFirst
import ZonekeyMcu.Lib.Runs
import ZonekeyMcu.Ticker

open depth_first runs

namespace zonekey_mcu.ticker

/-! ## Attach and detach -/

section

variable {F : Type}

def prev_filters (g : Graph F) (f : F) : List F :=
  (g.inputs f).filterMap fun l => l.map MSQueue.prev

/-- A filter with outputs, none of which is connected, is a bad graph (`ms_fatal`). -/
def check_outputs (g : Graph F) (f : F) : Except Fault Unit :=
  if g.outputs f ≠ [] ∧ next_filters g f = [] then .error .assertFailed else .ok ()

variable [DecidableEq F]

/-- Upstream first, then downstream. `seen` is set in the filters of the list. -/
def find_filters (g : Graph F) : Nat → List F → F → Except Fault (List F) :=
  search .neverReturns (fun f => prev_filters g f ++ next_filters g f) (check_outputs g)

def ms_filter_find_neighbours [Fintype F] (g : Graph F) (f : F) : Except Fault (List F) :=
  find_filters g (Fintype.card F + 1) [] f

def get_sources (g : Graph F) (filters : List F) : List F :=
  filters.filter fun f => (g.inputs f).length = 0

/-- `attached` says whether `ticker` of the filter is set. A task in `task_list` is the filter
that postponed it. `called` and `ran` are what the last tick did. -/
structure Life (F : Type) where
  execution_list : List F
  task_list : List F
  attached : F → Bool
  last_tick : F → BitVec 32
  ticks : BitVec 32
  called : List F
  ran : List F

def Life.new : Life F where
  execution_list := []
  task_list := []
  attached := fun _ => false
  last_tick := fun _ => 0
  ticks := 1
  called := []
  ran := []

/-- `ms_filter_preprocess` of each filter. -/
def preprocess (s : Life F) (filters : List F) : Life F :=
  { s with
    attached := fun f => decide (f ∈ filters) || s.attached f
    last_tick := fun f => if f ∈ filters then 0 else s.last_tick f }

variable [Fintype F]

/-- The loop over the filters of `ms_ticker_attach_multiple`, with the sources so far. -/
def attach_loop (g : Graph F) : Life F → List F → List F → Except Fault (Life F × List F)
  | s, total_sources, [] => .ok (s, total_sources)
  | s, total_sources, f :: fs =>
    if s.attached f then attach_loop g s total_sources fs
    else do
      let filters ← ms_filter_find_neighbours g f
      if get_sources g filters = [] then .error .assertFailed
      else attach_loop g (preprocess s filters) (total_sources ++ get_sources g filters) fs

def ms_ticker_attach_multiple (g : Graph F) (s : Life F) (fs : List F) :
    Except Fault (Life F) := do
  let (s, total_sources) ← attach_loop g s [] fs
  .ok { s with execution_list := s.execution_list ++ total_sources }

/-- `call_postprocess` takes the tasks of each filter out of the list. -/
def ms_ticker_detach (g : Graph F) (s : Life F) (f : F) : Except Fault (Life F) :=
  if s.attached f then do
    let filters ← ms_filter_find_neighbours g f
    if get_sources g filters = [] then .error .assertFailed
    else .ok { s with
      execution_list := (get_sources g filters).foldl List.erase s.execution_list
      attached := fun f => s.attached f && !decide (f ∈ filters)
      task_list := s.task_list.filter (· ∉ filters) }
  else .ok s

/-- One turn of `ms_ticker_run`. `postpones` are the filters that postpone a task while they are
processed, in order. -/
def turn (g : Graph F) (s : Life F) (postpones : List F) : Except Fault (Life F) := do
  let r ← run_graphs g (Fintype.card F + 3) s.execution_list false
    (MSTicker.start (s.ticks + 1) s.last_tick)
  .ok { s with
    ticks := s.ticks + 1
    last_tick := r.last_tick
    called := r.called
    ran := s.task_list
    task_list := (postpones.filter (· ∈ r.called)).reverse }

/-! ## Links -/

/-- `f1->outputs[pin1]=f2->inputs[pin2]=q;` -/
def Graph.put (g : Graph F) (f1 : F) (pin1 : Nat) (f2 : F) (pin2 : Nat)
    (q : Option (MSQueue F)) : Graph F where
  inputs := Function.update g.inputs f2 ((g.inputs f2).set pin2 q)
  outputs := Function.update g.outputs f1 ((g.outputs f1).set pin1 q)

/-- A new queue, from a free output pin to a free input pin. -/
def ms_filter_link (g : Graph F) (f1 : F) (pin1 : Nat) (f2 : F) (pin2 : Nat) : Int × Graph F :=
  if (g.outputs f1).length ≤ pin1 then (-1, g)
  else if (g.inputs f2).length ≤ pin2 then (-1, g)
  else if (g.outputs f1)[pin1]? ≠ some none then (-1, g)
  else if (g.inputs f2)[pin2]? ≠ some none then (-1, g)
  else (0, g.put f1 pin1 f2 pin2 (some ⟨f1, pin1, f2, pin2⟩))

def ms_filter_unlink (g : Graph F) (f1 : F) (pin1 : Nat) (f2 : F) (pin2 : Nat) : Int × Graph F :=
  if (g.outputs f1).length ≤ pin1 then (-1, g)
  else if (g.inputs f2).length ≤ pin2 then (-1, g)
  else if (g.outputs f1)[pin1]? = some none then (-1, g)
  else if (g.inputs f2)[pin2]? = some none then (-1, g)
  else if (g.outputs f1)[pin1]? ≠ (g.inputs f2)[pin2]? then (-1, g)
  else (0, g.put f1 pin1 f2 pin2 none)

/-! ## Runs -/

structure Host (F : Type) where
  graph : Graph F
  life : Life F

inductive Act (F : Type)
  | link (f1 : F) (pin1 : Nat) (f2 : F) (pin2 : Nat)
  | unlink (f1 : F) (pin1 : Nat) (f2 : F) (pin2 : Nat)
  | attach (fs : List F)
  | detach (f : F)
  | tick (postpones : List F)

def step (s : Host F) : Act F → Except Fault (Host F)
  | .link f1 pin1 f2 pin2 => .ok { s with graph := (ms_filter_link s.graph f1 pin1 f2 pin2).2 }
  | .unlink f1 pin1 f2 pin2 =>
    .ok { s with graph := (ms_filter_unlink s.graph f1 pin1 f2 pin2).2 }
  | .attach fs => do .ok { s with life := ← ms_ticker_attach_multiple s.graph s.life fs }
  | .detach f => do .ok { s with life := ← ms_ticker_detach s.graph s.life f }
  | .tick postpones => do .ok { s with life := ← turn s.graph s.life postpones }

end

section

variable {F : Type}

/-- Filters that are new, with so many pins. -/
def Graph.unlinked (ninputs noutputs : F → Nat) : Graph F where
  inputs f := List.replicate (ninputs f) none
  outputs f := List.replicate (noutputs f) none

def Host.new (ninputs noutputs : F → Nat) : Host F := ⟨.unlinked ninputs noutputs, .new⟩

/-! ## What the calls ask for -/

/-- One filter is linked to another, over any number of filters, in either direction. -/
def Connected (g : Graph F) : F → F → Prop :=
  Relation.ReflTransGen fun a b => g.Feeds b a ∨ g.Feeds a b

/-- Something without inputs feeds the filter, and its outputs do not all go nowhere. -/
structure Complete (g : Graph F) (f : F) : Prop where
  outputs : g.outputs f = [] ∨ next_filters g f ≠ []
  fed : ∃ source, g.inputs source = [] ∧ Relation.ReflTransGen g.Feeds source f

/-- What is to be scheduled, which tasks are pending, and the number of ticks so far. -/
structure Wanted (F : Type) where
  graph : Graph F
  filters : F → Prop
  tasks : List F
  ticks : Nat

def Wanted.new (ninputs noutputs : F → Nat) : Wanted F where
  graph := .unlinked ninputs noutputs
  filters := fun _ => False
  tasks := []
  ticks := 0

/-- Links are changed between filters that are not scheduled, what is attached is complete, and
the counter of the ticks does not wrap. -/
def Wanted.Allows (w : Wanted F) : Act F → Prop
  | .link f1 _ f2 _ => ¬ w.filters f1 ∧ ¬ w.filters f2
  | .unlink f1 _ f2 _ => ¬ w.filters f1 ∧ ¬ w.filters f2
  | .attach fs => ∀ f ∈ fs, ∀ x, Connected w.graph f x → Complete w.graph x
  | .detach _ => True
  | .tick _ => w.ticks + 2 < UInt32.size

variable [DecidableEq F]

open Classical in
/-- A tick postpones the tasks of scheduled filters, and a detach forgets those of its filters. -/
noncomputable def Wanted.after (w : Wanted F) : Act F → Wanted F
  | .link f1 pin1 f2 pin2 => { w with graph := (ms_filter_link w.graph f1 pin1 f2 pin2).2 }
  | .unlink f1 pin1 f2 pin2 => { w with graph := (ms_filter_unlink w.graph f1 pin1 f2 pin2).2 }
  | .attach fs => { w with filters := fun x => w.filters x ∨ ∃ f ∈ fs, Connected w.graph f x }
  | .detach f => { w with
      filters := fun x => w.filters x ∧ ¬ Connected w.graph f x
      tasks := w.tasks.filter fun x => ¬ (w.filters f ∧ Connected w.graph f x) }
  | .tick postpones => { w with
      tasks := (postpones.filter fun x => w.filters x).reverse
      ticks := w.ticks + 1 }

def AllAllowed (w : Wanted F) : List (Act F) → Prop
  | [] => True
  | a :: acts => w.Allows a ∧ AllAllowed (w.after a) acts

noncomputable def Wanted.afterAll (w : Wanted F) (acts : List (Act F)) : Wanted F :=
  acts.foldl Wanted.after w

end

/-! ## What links do to a graph -/

section

variable {F : Type} {g g' : Graph F} {f f1 f2 p x y : F} {pin1 pin2 : Nat}

theorem mem_prev : y ∈ prev_filters g f ↔ g.Feeds y f := by
  unfold prev_filters Graph.Feeds
  rw [List.mem_filterMap]
  constructor
  · rintro ⟨l, hl, hy⟩
    obtain ⟨l, rfl, rfl⟩ := Option.map_eq_some_iff.mp hy
    exact ⟨l, hl, rfl⟩
  · rintro ⟨l, hl, rfl⟩
    exact ⟨some l, hl, rfl⟩

theorem unlinked_consistent (ninputs noutputs : F → Nat) :
    (Graph.unlinked ninputs noutputs).Consistent where
  outputs f i l h := by
    have := List.mem_replicate.mp (List.mem_of_getElem? h)
    cases this.2
  inputs f i l h := by
    have := List.mem_replicate.mp (List.mem_of_getElem? h)
    cases this.2

section

variable [DecidableEq F] {q r : Option (MSQueue F)}

theorem put_outputs (i : Nat) (h : (g.outputs f1)[pin1]? = some r) :
    ((g.put f1 pin1 f2 pin2 q).outputs f)[i]? =
      if f = f1 ∧ i = pin1 then some q else (g.outputs f)[i]? := by
  obtain ⟨hlt, -⟩ := List.getElem?_eq_some_iff.mp h
  unfold Graph.put
  dsimp only
  by_cases hf : f = f1
  · subst hf
    rw [Function.update_self, List.getElem?_set]
    by_cases hi : pin1 = i
    · subst hi
      simp [hlt]
    · simp [hi, Ne.symm hi]
  · simp [hf]

theorem put_inputs (i : Nat) (h : (g.inputs f2)[pin2]? = some r) :
    ((g.put f1 pin1 f2 pin2 q).inputs f)[i]? =
      if f = f2 ∧ i = pin2 then some q else (g.inputs f)[i]? := by
  obtain ⟨hlt, -⟩ := List.getElem?_eq_some_iff.mp h
  unfold Graph.put
  dsimp only
  by_cases hf : f = f2
  · subst hf
    rw [Function.update_self, List.getElem?_set]
    by_cases hi : pin2 = i
    · subst hi
      simp [hlt]
    · simp [hi, Ne.symm hi]
  · simp [hf]

theorem Graph.Consistent.put_some (hg : g.Consistent) (hout : (g.outputs f1)[pin1]? = some none)
    (hin : (g.inputs f2)[pin2]? = some none) :
    (g.put f1 pin1 f2 pin2 (some ⟨f1, pin1, f2, pin2⟩)).Consistent where
  outputs f i l h := by
    rw [put_outputs i hout] at h
    rw [put_inputs _ hin]
    by_cases hslot : f = f1 ∧ i = pin1
    · rw [if_pos hslot] at h
      cases h
      exact ⟨hslot.1.symm, hslot.2.symm, if_pos ⟨rfl, rfl⟩⟩
    · rw [if_neg hslot] at h
      obtain ⟨hprev, hpin, hother⟩ := hg.outputs f i l h
      refine ⟨hprev, hpin, ?_⟩
      rw [if_neg, hother]
      rintro ⟨hnext, hnext_pin⟩
      rw [hnext, hnext_pin, hin] at hother
      cases hother
  inputs f i l h := by
    rw [put_inputs i hin] at h
    rw [put_outputs _ hout]
    by_cases hslot : f = f2 ∧ i = pin2
    · rw [if_pos hslot] at h
      cases h
      exact ⟨hslot.1.symm, hslot.2.symm, if_pos ⟨rfl, rfl⟩⟩
    · rw [if_neg hslot] at h
      obtain ⟨hnext, hpin, hother⟩ := hg.inputs f i l h
      refine ⟨hnext, hpin, ?_⟩
      rw [if_neg, hother]
      rintro ⟨hprev, hprev_pin⟩
      rw [hprev, hprev_pin, hout] at hother
      cases hother

theorem Graph.Consistent.put_none (hg : g.Consistent) {l : MSQueue F}
    (hout : (g.outputs f1)[pin1]? = some (some l)) (hin : (g.inputs f2)[pin2]? = some (some l)) :
    (g.put f1 pin1 f2 pin2 none).Consistent where
  outputs f i m h := by
    rw [put_outputs i hout] at h
    rw [put_inputs _ hin]
    by_cases hslot : f = f1 ∧ i = pin1
    · rw [if_pos hslot] at h
      cases h
    · rw [if_neg hslot] at h
      obtain ⟨hprev, hpin, hother⟩ := hg.outputs f i m h
      refine ⟨hprev, hpin, ?_⟩
      rw [if_neg, hother]
      rintro ⟨hnext, hnext_pin⟩
      rw [hnext, hnext_pin, hin] at hother
      cases hother
      obtain ⟨hprev', hpin', -⟩ := hg.outputs f1 pin1 l hout
      exact hslot ⟨hprev.symm.trans hprev', hpin.symm.trans hpin'⟩
  inputs f i m h := by
    rw [put_inputs i hin] at h
    rw [put_outputs _ hout]
    by_cases hslot : f = f2 ∧ i = pin2
    · rw [if_pos hslot] at h
      cases h
    · rw [if_neg hslot] at h
      obtain ⟨hnext, hpin, hother⟩ := hg.inputs f i m h
      refine ⟨hnext, hpin, ?_⟩
      rw [if_neg, hother]
      rintro ⟨hprev, hprev_pin⟩
      rw [hprev, hprev_pin, hout] at hother
      cases hother
      obtain ⟨hnext', hpin', -⟩ := hg.inputs f2 pin2 l hin
      exact hslot ⟨hnext.symm.trans hnext', hpin.symm.trans hpin'⟩

end

/-- The pins of the filters in `P` are the same in both graphs. -/
def Same (P : F → Prop) (g g' : Graph F) : Prop :=
  ∀ f, P f → g'.inputs f = g.inputs f ∧ g'.outputs f = g.outputs f

/-- A pin of the table that is not free has a queue. -/
theorem pin_taken {pins : List (Option (MSQueue F))} {i : Nat} (hlen : ¬ pins.length ≤ i)
    (hfree : pins[i]? ≠ some none) : ∃ l, pins[i]? = some (some l) := by
  have hlt : i < pins.length := not_le.mp hlen
  rw [List.getElem?_eq_getElem hlt] at *
  cases hl : pins[i] with
  | none => rw [hl] at hfree; exact absurd rfl hfree
  | some l => exact ⟨l, rfl⟩

section

variable {P : F → Prop}

theorem same_refl (g : Graph F) : Same P g g := fun _ _ => ⟨rfl, rfl⟩

variable [DecidableEq F]

theorem same_put {q : Option (MSQueue F)} (h1 : ¬ P f1) (h2 : ¬ P f2) :
    Same P g (g.put f1 pin1 f2 pin2 q) := by
  intro f hf
  constructor
  · refine Function.update_of_ne ?_ _ _
    rintro rfl
    exact h2 hf
  · refine Function.update_of_ne ?_ _ _
    rintro rfl
    exact h1 hf

/-- What a link keeps. -/
theorem link_keeps (hg : g.Consistent) (h1 : ¬ P f1) (h2 : ¬ P f2) :
    (ms_filter_link g f1 pin1 f2 pin2).2.Consistent ∧
      Same P g (ms_filter_link g f1 pin1 f2 pin2).2 := by
  unfold ms_filter_link
  split
  · exact ⟨hg, same_refl g⟩
  split
  · exact ⟨hg, same_refl g⟩
  split
  · exact ⟨hg, same_refl g⟩
  split
  · exact ⟨hg, same_refl g⟩
  rename_i _ _ hout hin
  exact ⟨hg.put_some (not_not.mp hout) (not_not.mp hin), same_put h1 h2⟩

theorem unlink_keeps (hg : g.Consistent) (h1 : ¬ P f1) (h2 : ¬ P f2) :
    (ms_filter_unlink g f1 pin1 f2 pin2).2.Consistent ∧
      Same P g (ms_filter_unlink g f1 pin1 f2 pin2).2 := by
  unfold ms_filter_unlink
  split
  · exact ⟨hg, same_refl g⟩
  split
  · exact ⟨hg, same_refl g⟩
  split
  · exact ⟨hg, same_refl g⟩
  split
  · exact ⟨hg, same_refl g⟩
  split
  · exact ⟨hg, same_refl g⟩
  rename_i hlen _ hout _ hsame
  obtain ⟨l, hl⟩ := pin_taken hlen hout
  exact ⟨hg.put_none hl ((not_not.mp hsame).symm.trans hl), same_put h1 h2⟩

end

/-! ## Parts of a graph -/

/-- No link leaves the part. -/
structure Apart (g : Graph F) (P : F → Prop) : Prop where
  up : ∀ p f, P f → g.Feeds p f → P p
  down : ∀ f y, P f → g.Feeds f y → P y

section

variable {P : F → Prop}

theorem Apart.connected (h : Apart g P) (hf : P f) (hx : Connected g f x) : P x := by
  induction hx with
  | refl => exact hf
  | tail _ hlink ih => exact hlink.elim (h.up _ _ ih) (h.down _ _ ih)

theorem connected_symm (h : Connected g f x) : Connected g x f := by
  have hsymm : Std.Symm fun a b => g.Feeds b a ∨ g.Feeds a b := ⟨fun _ _ h => h.symm⟩
  exact Relation.ReflTransGen.stdSymm.symm _ _ h

/-- What is around some filters is a part. -/
theorem apart_connected : Apart g (Connected g f) where
  up _ _ hx hp := hx.tail (.inl hp)
  down _ _ hx hy := hx.tail (.inr hy)

theorem Apart.same (h : Apart g P) (hg : g.Consistent) (hg' : g'.Consistent)
    (hsame : Same P g g') : Apart g' P where
  up p f hf hp := by
    refine h.up p f hf ?_
    unfold Graph.Feeds at *
    rwa [(hsame f hf).1] at hp
  down f y hf hy := by
    refine h.down f y hf (hg.mem_next.mp ?_)
    have hmem := hg'.mem_next.mpr hy
    unfold next_filters at *
    rwa [(hsame f hf).2] at hmem

/-- A path to a filter of the part lies in the part. -/
theorem Apart.path_same (h : Apart g P) (hsame : Same P g g')
    (hpath : Relation.ReflTransGen g.Feeds x f) (hf : P f) :
    P x ∧ Relation.ReflTransGen g'.Feeds x f := by
  induction hpath with
  | refl => exact ⟨hf, .refl⟩
  | @tail b c _ hfeeds ih =>
    obtain ⟨hx, hpath'⟩ := ih (h.up b c hf hfeeds)
    refine ⟨hx, hpath'.tail ?_⟩
    unfold Graph.Feeds at *
    rwa [(hsame c hf).1]

theorem Complete.same (hc : Complete g f) (h : Apart g P) (hsame : Same P g g') (hf : P f) :
    Complete g' f where
  outputs := by
    have := hc.outputs
    unfold next_filters at *
    rwa [(hsame f hf).2]
  fed := by
    obtain ⟨source, hsource, hpath⟩ := hc.fed
    obtain ⟨hP, hpath'⟩ := h.path_same hsame hpath hf
    exact ⟨source, by rw [(hsame source hP).1, hsource], hpath'⟩

end

end

/-! ## The filters around one -/

section

variable {F : Type} {g : Graph F} {f x : F} {xs : List F}

theorem path_connected (h : Relation.ReflTransGen g.Feeds x f) : Connected g f x :=
  connected_symm (h.lift id fun _ _ => .inr)

theorem mem_sources : x ∈ get_sources g xs ↔ x ∈ xs ∧ g.inputs x = [] := by
  unfold get_sources
  rw [List.mem_filter, decide_eq_true_eq, List.length_eq_zero_iff]

/-- `ms_fatal` is not reached. -/
theorem sources_found (hc : Complete g f) (hxs : ∀ x, x ∈ xs ↔ Connected g f x) :
    get_sources g xs ≠ [] := by
  obtain ⟨source, hsource, hpath⟩ := hc.fed
  exact List.ne_nil_of_mem (mem_sources.mpr ⟨(hxs source).mpr (path_connected hpath), hsource⟩)

variable [DecidableEq F] [Fintype F]

theorem neighbours_found (hg : g.Consistent) (hc : ∀ x, Connected g f x → Complete g x) :
    ∃ xs, ms_filter_find_neighbours g f = .ok xs ∧ xs.Nodup ∧
      ∀ x, x ∈ xs ↔ Connected g f x := by
  have hlink : (fun a b => b ∈ prev_filters g a ++ next_filters g a) =
      fun a b => g.Feeds b a ∨ g.Feeds a b := by
    funext a b
    rw [List.mem_append, mem_prev, hg.mem_next]
  have hnext : ∀ a, Connected g f a → ∀ b ∈ prev_filters g a ++ next_filters g a,
      Connected g f b := by
    intro a ha b hb
    refine ha.tail ?_
    rw [List.mem_append, mem_prev, hg.mem_next] at hb
    exact hb
  have hcheck : ∀ a, Connected g f a → check_outputs g a = .ok () := by
    intro a ha
    have := (hc a ha).outputs
    exact if_neg fun hbad => this.elim hbad.1 fun hnot => hnot hbad.2
  obtain ⟨xs, hfind, hexplored⟩ := search_explores hnext hcheck
    .refl List.nodup_nil (show Fintype.card F < Fintype.card F + 1 + 0 by omega)
  refine ⟨xs, hfind, hexplored.nodup, fun x => ?_⟩
  rw [hexplored.mem_iff, hlink]
  rfl

end

/-! ## A tick of some filters -/

section

variable {F : Type} {g : Graph F} {P : F → Prop} {s s' : MSTicker F} {f : F} {force : Bool}
  {ticks : BitVec 32} {last_tick : F → BitVec 32} {fs : List F}

/-- Since the start of the tick, nothing was done outside of the part. -/
structure Within (P : F → Prop) (ticks : BitVec 32) (last_tick : F → BitVec 32)
    (s : MSTicker F) : Prop where
  now : s.ticks = ticks
  stamps : ∀ f, s.last_tick f = last_tick f ∨ s.last_tick f = ticks
  called : ∀ f ∈ s.called, P f
  waiting : ∀ f ∈ s.unschedulable, P f

theorem start_within : Within P ticks last_tick (.start ticks last_tick) where
  now := rfl
  stamps _ := .inl rfl
  called _ hf := absurd hf List.not_mem_nil
  waiting _ hf := absurd hf List.not_mem_nil

/-- A loop of visits keeps what one visit keeps. -/
theorem run_each_keeps {visit : F → MSTicker F → Except Fault (MSTicker F)} {I : MSTicker F → Prop}
    (hvisit : ∀ f s s', P f → I s → visit f s = .ok s' → I s') (hfs : ∀ f ∈ fs, P f) (hI : I s)
    (hrun : run_each visit fs s = .ok s') : I s' := by
  induction fs generalizing s with
  | nil =>
    cases hrun
    exact hI
  | cons f fs ih =>
    obtain ⟨hf, hfs⟩ := List.forall_mem_cons.mp hfs
    obtain ⟨t, hvisited, hrest⟩ := bind_ok hrun
    exact ih hfs (hvisit f s t hf hI hvisited) hrest

/-- Without cycles, the first pass calls each filter of the part. -/
theorem first_pass_calls_part [Finite F] (hacyclic : ∀ f, P f → ¬ Relation.TransGen g.Feeds f f)
    (hpart : Apart g P)
    (hreach : ∀ f, P f → ∃ source ∈ fs, Relation.ReflTransGen g.Feeds source f)
    (hnew : s.called = []) (hlater : Later g false s s')
    (hseen : ∀ f ∈ fs, Visited g false s s' f) (hf : P f) : f ∈ s'.called := by
  have hirrefl : ∀ f, ¬ Relation.TransGen (fun a b => g.Feeds a b ∧ P b) f f := by
    intro f hloop
    obtain ⟨-, -, -, hP⟩ := Relation.TransGen.tail'_iff.mp hloop
    exact hacyclic f hP (hloop.lift id fun _ _ h => h.1)
  have hwf : WellFounded (Relation.TransGen fun a b => g.Feeds a b ∧ P b) :=
    @Finite.wellFounded_of_trans_of_irrefl F _ _ _ ⟨hirrefl⟩
  induction f using hwf.induction with
  | _ f ih =>
    have hfed : ∀ p, g.Feeds p f → p ∈ s'.called :=
      fun p hp => ih p (.single ⟨hp, hf⟩) (hpart.up p f hf hp)
    by_cases hsome : ∃ p, g.Feeds p f
    · obtain ⟨p, hp⟩ := hsome
      exact hlater.late f hfed ⟨p, hp, by rw [hnew]; exact List.not_mem_nil⟩
    · obtain ⟨source, hsource, hpath⟩ := hreach f hf
      have hlist : f ∈ fs := by
        rcases Relation.ReflTransGen.cases_tail hpath with heq | ⟨p, -, hp⟩
        · exact heq ▸ hsource
        · exact absurd ⟨p, hp⟩ hsome
      exact (hseen f hlist).ready (.inr fun p hp => absurd ⟨p, hp⟩ hsome)

/-- Where each filter of the part was called, nothing more is. -/
theorem Later.adds_nothing_to (hlater : Later g force s s') (hall : ∀ f, P f → f ∈ s.called)
    (hcalled : ∀ f ∈ s'.called, P f) : s'.called = s.called := by
  obtain ⟨more, hmore⟩ := hlater.called
  have hnil : more = [] := by
    apply List.eq_nil_iff_forall_not_mem.mpr
    intro y hy
    have honce := hlater.stamped.once
    have hP : P y := hcalled y (hmore ▸ List.mem_append_right _ hy)
    rw [← hmore] at honce
    exact List.disjoint_of_nodup_append honce (hall y hP) hy
  rw [← hmore, hnil, List.append_nil]

variable [DecidableEq F]

theorem Within.call (h : Within P ticks last_tick s) (hf : P f) :
    Within P ticks last_tick (s.call f) where
  now := h.now
  stamps y := by
    unfold MSTicker.call
    dsimp only
    by_cases hy : y = f
    · subst hy
      rw [Function.update_self]
      exact .inr h.now
    · rw [Function.update_of_ne hy]
      exact h.stamps y
  called y hy := by
    rcases List.mem_append.mp hy with hy | hy
    · exact h.called y hy
    · rwa [List.mem_singleton.mp hy]
  waiting := h.waiting

theorem run_graph_within (hg : g.Consistent) (hpart : Apart g P) {fuel : Nat} (hf : P f)
    (h : Within P ticks last_tick s) (hrun : run_graph g force fuel f s = .ok s') :
    Within P ticks last_tick s' := by
  induction fuel generalizing f s s' with
  | zero => cases hrun
  | succ fuel ih =>
    unfold run_graph at hrun
    split at hrun
    · split at hrun
      · have hnext : ∀ y ∈ next_filters g f, P y :=
          fun y hy => hpart.down f y hf (hg.mem_next.mp hy)
        exact run_each_keeps (fun y t t' hy ht hvisit => ih hy ht hvisit) hnext (h.call hf) hrun
      · cases hrun
        refine ⟨h.now, h.stamps, h.called, fun y hy => ?_⟩
        rcases List.mem_cons.mp hy with rfl | hy
        · exact hf
        · exact h.waiting y hy
    · cases hrun
      exact h

theorem run_graphs_within (hg : g.Consistent) (hpart : Apart g P) {fuel : Nat}
    (hfs : ∀ f ∈ fs, P f) (h : Within P ticks last_tick s)
    (hrun : run_graphs g fuel fs force s = .ok s') : Within P ticks last_tick s' := by
  induction fuel generalizing fs force s s' with
  | zero => cases hrun
  | succ fuel ih =>
    obtain ⟨t, hpass, hrest⟩ := bind_ok hrun
    have hstart : Within P ticks last_tick { s with unschedulable := [] } :=
      ⟨h.now, h.stamps, h.called, fun y hy => absurd hy List.not_mem_nil⟩
    have ht : Within P ticks last_tick t :=
      run_each_keeps (fun y t t' hy ht hvisit => run_graph_within hg hpart hy ht hvisit) hfs
        hstart hpass
    split at hrest
    · exact ih ht.waiting ht hrest
    · cases hrest
      exact ht

variable [Fintype F]

/-- A tick calls the filters of the part, each once, behind those that feed it. -/
structure Called (g : Graph F) (P : F → Prop) (called : List F) : Prop where
  once : called.Nodup
  all : ∀ f, f ∈ called ↔ P f
  in_order : (∀ f, P f → ¬ Relation.TransGen g.Feeds f f) →
    ∀ p f, P f → g.Feeds p f → called.idxOf p < called.idxOf f

theorem tick_calls (hg : g.Consistent) (hpart : Apart g P) (hfs : ∀ f ∈ fs, P f)
    (hreach : ∀ f, P f → ∃ source ∈ fs, Relation.ReflTransGen g.Feeds source f)
    (hfresh : ∀ f, last_tick f ≠ ticks) :
    ∃ s, run_graphs g (Fintype.card F + 3) fs false (.start ticks last_tick) = .ok s ∧
      Within P ticks last_tick s ∧ Called g P s.called := by
  have hfuel : Enough (Fintype.card F + 2) (MSTicker.start ticks last_tick) := by
    unfold Enough
    omega
  obtain ⟨s, hfirst, hlater, hseen⟩ := pass_spec hg false fs (start_stamped hfresh) hfuel
  have henough : Enough (Fintype.card F + 1) s := by
    unfold Enough
    omega
  obtain ⟨s', hsecond, hlater', hnone, hforced⟩ := second_pass hg hlater.stamped henough
  have hrun : run_graphs g (Fintype.card F + 3) fs false (.start ticks last_tick) = .ok s' := by
    rw [run_graphs, hfirst]
    exact hsecond
  have hwithin := run_graphs_within hg hpart hfs start_within hrun
  refine ⟨s', hrun, hwithin, hlater'.stamped.once, fun f => ⟨hwithin.called f, fun hf => ?_⟩,
    fun hacyclic p f hf hp => ?_⟩
  · obtain ⟨source, hsource, hpath⟩ := hreach f hf
    exact both_passes_call rfl hlater hseen hlater' hnone hforced hsource hpath
  · have hall : ∀ f, P f → f ∈ s.called :=
      fun f hf => first_pass_calls_part hacyclic hpart hreach rfl hlater hseen hf
    have hsame : s'.called = s.called := hlater'.adds_nothing_to hall hwithin.called
    rw [hsame]
    exact (hlater.ordered rfl ordered_nil).idxOf_lt (hall f hf) hp

end

/-! ## The ticker does what is asked for -/

section

variable {F : Type} {w : Wanted F} {s : Life F} {f x : F} {xs : List F}

structure Follows (w : Wanted F) (s : Life F) : Prop where
  consistent : w.graph.Consistent
  apart : Apart w.graph w.filters
  complete : ∀ f, w.filters f → Complete w.graph f
  attached : ∀ f, s.attached f = true ↔ w.filters f
  listed : ∀ f, f ∈ s.execution_list ↔ w.filters f ∧ w.graph.inputs f = []
  nodup : s.execution_list.Nodup
  tasks : s.task_list = w.tasks
  ticks : s.ticks.toNat = w.ticks + 1
  past : ∀ f, (s.last_tick f).toNat ≤ w.ticks + 1

theorem new_follows (ninputs noutputs : F → Nat) :
    Follows (Wanted.new ninputs noutputs) Life.new where
  consistent := unlinked_consistent ninputs noutputs
  apart := ⟨fun _ _ h _ => h, fun _ _ h _ => h⟩
  complete _ h := h.elim
  attached f := by simp [Life.new, Wanted.new]
  listed f := by simp [Life.new, Wanted.new]
  nodup := List.nodup_nil
  tasks := rfl
  ticks := rfl
  past _ := Nat.zero_le _

/-- Links between filters that are not scheduled do not matter. -/
theorem Follows.relink (h : Follows w s) {g' : Graph F}
    (hg' : g'.Consistent ∧ Same w.filters w.graph g') : Follows { w with graph := g' } s where
  consistent := hg'.1
  apart := h.apart.same h.consistent hg'.1 hg'.2
  complete f hf := (h.complete f hf).same h.apart hg'.2 hf
  attached := h.attached
  listed f := by
    rw [h.listed f]
    refine and_congr_right fun hf => ?_
    rw [(hg'.2 f hf).1]
  nodup := h.nodup
  tasks := h.tasks
  ticks := h.ticks
  past := h.past

theorem Follows.congr {filters : F → Prop} (h : Follows w s)
    (hsame : ∀ x, filters x ↔ w.filters x) : Follows { w with filters := filters } s := by
  have : filters = w.filters := funext fun x => propext (hsame x)
  rwa [this]

variable [DecidableEq F]

/-- Filters that are linked to each other and to no others are scheduled. -/
theorem Follows.add (h : Follows w s) (hnot : ¬ w.filters f)
    (hc : ∀ x, Connected w.graph f x → Complete w.graph x) (hnodup : xs.Nodup)
    (hxs : ∀ x, x ∈ xs ↔ Connected w.graph f x) :
    Follows { w with filters := fun x => w.filters x ∨ Connected w.graph f x }
      { preprocess s xs with
        execution_list := s.execution_list ++ get_sources w.graph xs } where
  consistent := h.consistent
  apart := by
    refine ⟨fun p y hy hp => ?_, fun y z hy hz => ?_⟩
    · exact hy.imp (h.apart.up p y · hp) (apart_connected.up p y · hp)
    · exact hy.imp (h.apart.down y z · hz) (apart_connected.down y z · hz)
  complete y hy := hy.elim (h.complete y) (hc y)
  attached y := by
    unfold preprocess
    dsimp only
    rw [Bool.or_eq_true, decide_eq_true_eq, h.attached, hxs, or_comm]
  listed y := by
    dsimp only
    rw [List.mem_append, mem_sources, h.listed, hxs, or_and_right]
  nodup := by
    refine List.nodup_append.mpr ⟨h.nodup, hnodup.filter _, fun a ha b hb hab => ?_⟩
    subst hab
    have hfa := (hxs a).mp (mem_sources.mp hb).1
    exact hnot (h.apart.connected ((h.listed a).mp ha).1 (connected_symm hfa))
  tasks := h.tasks
  ticks := h.ticks
  past y := by
    unfold preprocess
    dsimp only
    split
    · exact Nat.zero_le _
    · exact h.past y

theorem Follows.remove (h : Follows w s) (hf : w.filters f)
    (hxs : ∀ x, x ∈ xs ↔ Connected w.graph f x) :
    Follows (w.after (.detach f)) { s with
      execution_list := (get_sources w.graph xs).foldl List.erase s.execution_list
      attached := fun f => s.attached f && !decide (f ∈ xs)
      task_list := s.task_list.filter (· ∉ xs) } where
  consistent := h.consistent
  apart := by
    refine ⟨fun p y hy hp => ⟨h.apart.up p y hy.1 hp, fun hpath => hy.2 ?_⟩,
      fun y z hy hz => ⟨h.apart.down y z hy.1 hz, fun hpath => hy.2 ?_⟩⟩
    · exact hpath.tail (.inr hp)
    · exact hpath.tail (.inl hz)
  complete y hy := h.complete y hy.1
  attached y := by
    dsimp only [Wanted.after]
    rw [Bool.and_eq_true, h.attached, Bool.not_eq_true', decide_eq_false_iff_not, hxs]
  listed y := by
    dsimp only [Wanted.after]
    rw [← List.diff_eq_foldl, h.nodup.mem_sdiff_iff, h.listed, mem_sources, hxs]
    tauto
  nodup := by
    dsimp only
    rw [← List.diff_eq_foldl]
    exact h.nodup.diff
  tasks := by
    dsimp only [Wanted.after]
    rw [h.tasks]
    apply List.filter_congr
    intro y _
    rw [decide_eq_decide, hxs, and_iff_right hf]
  ticks := h.ticks
  past := h.past

end

section

variable {F : Type} [DecidableEq F] [Fintype F] {w : Wanted F} {s : Life F} {fs : List F}

theorem attach_loop_follows (total : List F)
    (h : Follows w { s with execution_list := s.execution_list ++ total })
    (hfs : ∀ f ∈ fs, ∀ x, Connected w.graph f x → Complete w.graph x) :
    ∃ s' total', attach_loop w.graph s total fs = .ok (s', total') ∧
      Follows (w.after (.attach fs))
        { s' with execution_list := s'.execution_list ++ total' } := by
  induction fs generalizing w s total with
  | nil =>
    refine ⟨s, total, rfl, h.congr fun x => ?_⟩
    simp
  | cons f fs ih =>
    obtain ⟨hf, hrest⟩ := List.forall_mem_cons.mp hfs
    simp only [attach_loop]
    by_cases hattached : s.attached f = true
    · rw [if_pos hattached]
      obtain ⟨s', total', hloop, hfollows⟩ := ih total h hrest
      refine ⟨s', total', hloop, hfollows.congr fun x => ?_⟩
      have hin : Connected w.graph f x → w.filters x :=
        h.apart.connected ((h.attached f).mp hattached)
      simp only [Wanted.after, List.mem_cons, exists_eq_or_imp]
      tauto
    · rw [if_neg hattached]
      obtain ⟨xs, hfind, hnodup, hxs⟩ := neighbours_found h.consistent hf
      have hnot : ¬ w.filters f := fun hmem => hattached ((h.attached f).mpr hmem)
      have hadd := h.add hnot hf hnodup hxs
      obtain ⟨s', total', hloop, hfollows⟩ := ih
        (w := { w with filters := fun x => w.filters x ∨ Connected w.graph f x })
        (s := preprocess s xs) (total ++ get_sources w.graph xs)
        (by rw [← List.append_assoc]; exact hadd) hrest
      refine ⟨s', total', ?_, hfollows.congr fun x => ?_⟩
      · rw [hfind, ok_bind, if_neg (sources_found (hf f .refl) hxs)]
        exact hloop
      · simp only [Wanted.after, List.mem_cons, exists_eq_or_imp]
        tauto

theorem attach_follows (h : Follows w s) (hallows : w.Allows (.attach fs)) :
    ∃ s', ms_ticker_attach_multiple w.graph s fs = .ok s' ∧ Follows (w.after (.attach fs)) s' := by
  obtain ⟨s', total, hloop, hfollows⟩ := attach_loop_follows (s := s) []
    (by rw [List.append_nil]; exact h) hallows
  refine ⟨_, ?_, hfollows⟩
  unfold ms_ticker_attach_multiple
  rw [hloop]
  rfl

theorem detach_follows (h : Follows w s) (f : F) :
    ∃ s', ms_ticker_detach w.graph s f = .ok s' ∧ Follows (w.after (.detach f)) s' := by
  unfold ms_ticker_detach
  by_cases hattached : s.attached f = true
  · rw [if_pos hattached]
    have hf : w.filters f := (h.attached f).mp hattached
    have hc : ∀ x, Connected w.graph f x → Complete w.graph x :=
      fun x hx => h.complete x (h.apart.connected hf hx)
    obtain ⟨xs, hfind, -, hxs⟩ := neighbours_found h.consistent hc
    refine ⟨_, ?_, h.remove hf hxs⟩
    rw [hfind, ok_bind, if_neg (sources_found (hc f .refl) hxs)]
  · rw [if_neg hattached]
    have hf : ¬ w.filters f := fun hmem => hattached ((h.attached f).mpr hmem)
    refine ⟨s, rfl, ?_⟩
    have hfilters : (w.after (.detach f)).filters = w.filters := by
      funext x
      refine propext ⟨fun hx => hx.1, fun hx => ⟨hx, fun hpath => hf ?_⟩⟩
      exact h.apart.connected hx (connected_symm hpath)
    have htasks : (w.after (.detach f)).tasks = w.tasks := by
      simp [Wanted.after, hf]
    have hsame : w.after (.detach f) = w := by
      calc w.after (.detach f) = { w with
              filters := (w.after (.detach f)).filters
              tasks := (w.after (.detach f)).tasks } := rfl
        _ = w := by rw [hfilters, htasks]
    rw [hsame]
    exact h

theorem turn_follows (h : Follows w s) (postpones : List F)
    (hallows : w.Allows (.tick postpones)) :
    ∃ s', turn w.graph s postpones = .ok s' ∧ Follows (w.after (.tick postpones)) s' ∧
      Called w.graph w.filters s'.called ∧ s'.ran = w.tasks := by
  have hnow : (s.ticks + 1).toNat = w.ticks + 2 := by
    have := h.ticks
    have hbound : w.ticks + 2 < UInt32.size := hallows
    rw [BitVec.toNat_add, this]
    simp
    omega
  have hfresh : ∀ f, s.last_tick f ≠ s.ticks + 1 := by
    intro f heq
    have := h.past f
    rw [heq, hnow] at this
    omega
  have hreach : ∀ f, w.filters f →
      ∃ source ∈ s.execution_list, Relation.ReflTransGen w.graph.Feeds source f := by
    intro f hf
    obtain ⟨source, hsource, hpath⟩ := (h.complete f hf).fed
    have hin := h.apart.connected hf (path_connected hpath)
    exact ⟨source, (h.listed source).mpr ⟨hin, hsource⟩, hpath⟩
  obtain ⟨r, hrun, hwithin, hcalled⟩ := tick_calls h.consistent h.apart
    (fun f hf => ((h.listed f).mp hf).1) hreach hfresh
  simp only [turn, hrun, ok_bind]
  refine ⟨_, rfl, ⟨h.consistent, h.apart, h.complete, h.attached, h.listed, h.nodup, ?_, ?_, ?_⟩,
    hcalled, h.tasks⟩
  · dsimp only [Wanted.after]
    congr 1
    apply List.filter_congr
    intro f _
    rw [decide_eq_decide, hcalled.all]
  · exact hnow
  · intro f
    dsimp only [Wanted.after]
    rcases hwithin.stamps f with heq | heq
    · rw [heq]
      have := h.past f
      omega
    · rw [heq, hnow]

theorem step_follows {s : Host F} (hgraph : s.graph = w.graph) (h : Follows w s.life) {a : Act F}
    (ha : w.Allows a) :
    ∃ s', step s a = .ok s' ∧ s'.graph = (w.after a).graph ∧ Follows (w.after a) s'.life := by
  cases a with
  | link f1 pin1 f2 pin2 =>
    simp only [step, hgraph]
    exact ⟨_, rfl, rfl, h.relink (link_keeps h.consistent ha.1 ha.2)⟩
  | unlink f1 pin1 f2 pin2 =>
    simp only [step, hgraph]
    exact ⟨_, rfl, rfl, h.relink (unlink_keeps h.consistent ha.1 ha.2)⟩
  | attach fs =>
    obtain ⟨s', hattach, hfollows⟩ := attach_follows h ha
    simp only [step, hgraph, hattach, ok_bind]
    exact ⟨_, rfl, rfl, hfollows⟩
  | detach f =>
    obtain ⟨s', hdetach, hfollows⟩ := detach_follows h f
    simp only [step, hgraph, hdetach, ok_bind]
    exact ⟨_, rfl, rfl, hfollows⟩
  | tick postpones =>
    obtain ⟨s', hturn, hfollows, -⟩ := turn_follows h postpones ha
    simp only [step, hgraph, hturn, ok_bind]
    exact ⟨_, rfl, rfl, hfollows⟩

theorem run_follows {s : Host F} (hgraph : s.graph = w.graph) (h : Follows w s.life)
    {acts : List (Act F)} (hall : AllAllowed w acts) :
    ∃ s', run step s acts = .ok s' ∧ s'.graph = (w.afterAll acts).graph ∧
      Follows (w.afterAll acts) s'.life := by
  induction acts generalizing w s with
  | nil => exact ⟨s, rfl, hgraph, h⟩
  | cons a acts ih =>
    obtain ⟨t, hstep, hgraph', hfollows⟩ := step_follows hgraph h hall.1
    obtain ⟨s', hrun, hend⟩ := ih hgraph' hfollows hall.2
    exact ⟨s', by rw [run_cons_ok acts hstep, hrun], hend⟩

omit [Fintype F] in
theorem allAllowed_append {acts acts' : List (Act F)} :
    AllAllowed w (acts ++ acts') ↔ AllAllowed w acts ∧ AllAllowed (w.afterAll acts) acts' := by
  induction acts generalizing w with
  | nil =>
    simp only [List.nil_append, AllAllowed, true_and]
    rfl
  | cons a acts ih =>
    rw [List.cons_append, AllAllowed, AllAllowed, ih, and_assoc]
    rfl

end

/-! ## The law -/

/-- Whatever is linked, attached and detached, the next tick calls each filter that is to be
scheduled, once and behind those that feed it, no other filter, and runs exactly the pending
tasks. No call reaches `ms_fatal`. -/
theorem the_ticker_runs_exactly_what_is_attached {F : Type} [DecidableEq F] [Fintype F]
    (ninputs noutputs : F → Nat) (acts : List (Act F)) (postpones : List F)
    (h : AllAllowed (Wanted.new ninputs noutputs) (acts ++ [.tick postpones])) :
    ∃ s s', run step (Host.new ninputs noutputs) acts = .ok s ∧
      step s (.tick postpones) = .ok s' ∧
      (∀ f, s.life.attached f = true ↔
        ((Wanted.new ninputs noutputs).afterAll acts).filters f) ∧
      Called s.graph ((Wanted.new ninputs noutputs).afterAll acts).filters s'.life.called ∧
      s'.life.ran = ((Wanted.new ninputs noutputs).afterAll acts).tasks := by
  obtain ⟨hacts, htick, -⟩ := allAllowed_append.mp h
  obtain ⟨s, hrun, hgraph, hfollows⟩ :=
    run_follows (s := Host.new ninputs noutputs) rfl (new_follows ninputs noutputs) hacts
  obtain ⟨t, hturn, -, hcalled, hran⟩ := turn_follows hfollows postpones htick
  refine ⟨s, { s with life := t }, hrun, ?_, hfollows.attached, hgraph ▸ hcalled, hran⟩
  simp only [step, hgraph, hturn, ok_bind]

/-! ## Three filters -/

inductive Stage
  | source
  | effect
  | sink
  deriving DecidableEq

instance : Fintype Stage where
  elems := {.source, .effect, .sink}
  complete f := by cases f <;> simp

def Stage.ninputs : Stage → Nat
  | source => 0
  | effect => 1
  | sink => 2

def Stage.noutputs : Stage → Nat
  | source => 2
  | effect => 1
  | sink => 0

/-- The source feeds the sink and the effect, in this order, and the effect feeds the sink. -/
def wire_stages : List (Act Stage) :=
  [.link .source 0 .sink 0, .link .source 1 .effect 0, .link .effect 0 .sink 1]

theorem stages_complete (f : Stage) :
    Complete ((Wanted.new Stage.ninputs Stage.noutputs).afterAll wire_stages).graph f where
  outputs := by
    cases f
    · exact .inr (by decide)
    · exact .inr (by decide)
    · exact .inl (by decide)
  fed := by
    refine ⟨.source, by decide, ?_⟩
    cases f
    · exact .refl
    · exact .single ⟨⟨.source, 1, .effect, 0⟩, by decide, rfl⟩
    · exact .single ⟨⟨.source, 0, .sink, 0⟩, by decide, rfl⟩

theorem stages_allowed :
    AllAllowed (Wanted.new Stage.ninputs Stage.noutputs)
      (wire_stages ++ [.attach [.source, .sink], .tick [.effect]] ++ [.tick []]) := by
  rw [List.append_assoc, allAllowed_append]
  refine ⟨?_, ?_, ?_, ?_, trivial⟩
  · simp [wire_stages, AllAllowed, Wanted.Allows, Wanted.after, Wanted.new]
  · exact fun _ _ x _ => stages_complete x
  · exact (by decide : 0 + 2 < UInt32.size)
  · exact (by decide : 1 + 2 < UInt32.size)

/-- In the second tick of these filters. -/
theorem the_ticker_runs_exactly_what_is_attached_example :
    ∃ s s', run step (Host.new Stage.ninputs Stage.noutputs)
        (wire_stages ++ [.attach [.source, .sink], .tick [.effect]]) = .ok s ∧
      step s (.tick []) = .ok s' ∧
      (∀ f, s.life.attached f = true ↔ ((Wanted.new Stage.ninputs Stage.noutputs).afterAll
        (wire_stages ++ [.attach [.source, .sink], .tick [.effect]])).filters f) ∧
      Called s.graph ((Wanted.new Stage.ninputs Stage.noutputs).afterAll
        (wire_stages ++ [.attach [.source, .sink], .tick [.effect]])).filters s'.life.called ∧
      s'.life.ran = ((Wanted.new Stage.ninputs Stage.noutputs).afterAll
        (wire_stages ++ [.attach [.source, .sink], .tick [.effect]])).tasks :=
  the_ticker_runs_exactly_what_is_attached Stage.ninputs Stage.noutputs
    (wire_stages ++ [.attach [.source, .sink], .tick [.effect]]) [] stages_allowed

/-- The task of the effect is run in the tick behind the one that it was postponed in. -/
example : (run step (Host.new Stage.ninputs Stage.noutputs)
      (wire_stages ++ [.attach [.source, .sink], .tick [.effect], .tick []])).map
    (fun s => (s.life.called, s.life.ran)) =
      .ok ([.source, .effect, .sink], [.effect]) := by decide +kernel

end zonekey_mcu.ticker
