-- The links of a director conference as the tables of pins that its tickers go along. A link and
-- an unlink do the same to both.
import ZonekeyMcu.TickerRuns
import ZonekeyMcu.ConferenceRuns

namespace zonekey_mcu.filter_graph

/-! ## The tables of the pins -/

/-- The same queue, in the words of the ticker. -/
def MSQueue.queue (q : MSQueue) : ticker.MSQueue MSFilter := ⟨q.f1, q.pin1, q.f2, q.pin2⟩

def tables (links : Links) : ticker.Graph MSFilter where
  inputs f := (List.range f.ninputs).map fun pin => (inputs links f pin).map MSQueue.queue
  outputs f := (List.range f.noutputs).map fun pin => (outputs links f pin).map MSQueue.queue

/-- Every queue is at pins that its filters have. -/
def InRange (links : Links) : Prop := ∀ q ∈ links, q.pin1 < q.f1.noutputs ∧ q.pin2 < q.f2.ninputs

section

variable {links : Links} {f f1 f2 : MSFilter} {pin pin1 pin2 : Nat} {q : MSQueue}

theorem queue_injective : Function.Injective MSQueue.queue := by
  intro q r h
  cases q
  cases r
  cases h
  rfl

theorem tables_input : ((tables links).inputs f)[pin]? =
    if pin < f.ninputs then some ((inputs links f pin).map MSQueue.queue) else none := by
  unfold tables
  split <;> simp [*]

theorem tables_output : ((tables links).outputs f)[pin]? =
    if pin < f.noutputs then some ((outputs links f pin).map MSQueue.queue) else none := by
  unfold tables
  split <;> simp [*]

/-- What the two tables show is all that there is to know of the links. -/
theorem tables_eq {g : ticker.Graph MSFilter}
    (hin : ∀ (f : MSFilter) (pin : Nat), (g.inputs f)[pin]? = ((tables links).inputs f)[pin]?)
    (hout : ∀ (f : MSFilter) (pin : Nat), (g.outputs f)[pin]? = ((tables links).outputs f)[pin]?) :
    g = tables links := by
  cases g with
  | mk inputs outputs =>
    have hi : inputs = (tables links).inputs := funext fun f => List.ext_getElem? (hin f)
    have ho : outputs = (tables links).outputs := funext fun f => List.ext_getElem? (hout f)
    rw [hi, ho]

/-! ## Searches by the pin -/

theorem find_append {α κ : Type} [DecidableEq κ] (key : α → κ) {xs : List α} {x : α} (k : κ)
    (hfree : xs.find? (fun y => key y = key x) = none) :
    (xs ++ [x]).find? (fun y => key y = k) =
      if k = key x then some x else xs.find? fun y => key y = k := by
  rw [List.find?_append, List.find?_singleton]
  by_cases hk : k = key x
  · subst hk
    simp [hfree]
  · simp [hk, Ne.symm hk]

theorem find_erase {α κ : Type} [DecidableEq α] [DecidableEq κ] (key : α → κ) {xs : List α}
    {x : α} (k : κ) (hone : ∀ y ∈ xs, key y = key x → y = x) (hnodup : xs.Nodup) :
    (xs.erase x).find? (fun y => key y = k) =
      if k = key x then none else xs.find? fun y => key y = k := by
  induction xs with
  | nil => simp
  | cons y xs ih =>
    obtain ⟨hy, hrest⟩ := List.nodup_cons.mp hnodup
    have hone' : ∀ z ∈ xs, key z = key x → z = x := fun z hz => hone z (List.mem_cons_of_mem y hz)
    by_cases hyx : y = x
    · subst hyx
      rw [List.erase_cons_head]
      split
      · rename_i hk
        subst hk
        rw [List.find?_eq_none]
        intro z hz hkey
        exact hy (hone' z hz (by simpa using hkey) ▸ hz)
      · rename_i hk
        rw [List.find?_cons_of_neg]
        simpa using Ne.symm hk
    · rw [List.erase_cons_tail (by simpa using hyx), List.find?_cons, List.find?_cons,
        ih hone' hrest]
      have hkey : key y ≠ key x := fun heq => hyx (hone y List.mem_cons_self heq)
      by_cases hk : k = key x
      · subst hk
        simp [hkey]
      · simp [hk]

theorem outputs_find : outputs links f pin =
    links.find? fun q => decide ((q.f1, q.pin1) = (f, pin)) := by
  simp only [outputs, Prod.mk.injEq]

theorem inputs_find : inputs links f pin =
    links.find? fun q => decide ((q.f2, q.pin2) = (f, pin)) := by
  simp only [inputs, Prod.mk.injEq]

theorem outputs_some (h : outputs links f pin = some q) : q ∈ links ∧ q.f1 = f ∧ q.pin1 = pin := by
  have hpins := List.find?_some h
  simp only [decide_eq_true_eq] at hpins
  exact ⟨List.mem_of_find?_eq_some h, hpins⟩

theorem inputs_some (h : inputs links f pin = some q) : q ∈ links ∧ q.f2 = f ∧ q.pin2 = pin := by
  have hpins := List.find?_some h
  simp only [decide_eq_true_eq] at hpins
  exact ⟨List.mem_of_find?_eq_some h, hpins⟩

theorem outputs_append (hfree : outputs links q.f1 q.pin1 = none) (f : MSFilter) (pin : Nat) :
    outputs (links ++ [q]) f pin =
      if f = q.f1 ∧ pin = q.pin1 then some q else outputs links f pin := by
  rw [outputs_find] at hfree
  have hfind := find_append (fun q : MSQueue => (q.f1, q.pin1)) (f, pin) hfree
  rw [outputs_find, outputs_find, hfind]
  simp only [Prod.mk.injEq]

theorem inputs_append (hfree : inputs links q.f2 q.pin2 = none) (f : MSFilter) (pin : Nat) :
    inputs (links ++ [q]) f pin =
      if f = q.f2 ∧ pin = q.pin2 then some q else inputs links f pin := by
  rw [inputs_find] at hfree
  have hfind := find_append (fun q : MSQueue => (q.f2, q.pin2)) (f, pin) hfree
  rw [inputs_find, inputs_find, hfind]
  simp only [Prod.mk.injEq]

theorem outputs_erase (h : Linked links) (hq : q ∈ links) (f : MSFilter) (pin : Nat) :
    outputs (links.erase q) f pin =
      if f = q.f1 ∧ pin = q.pin1 then none else outputs links f pin := by
  have hone : ∀ r ∈ links, (r.f1, r.pin1) = (q.f1, q.pin1) → r = q := fun r hr heq =>
    h.out r hr q hq (Prod.mk.inj heq).1 (Prod.mk.inj heq).2
  have hfind := find_erase (fun q : MSQueue => (q.f1, q.pin1)) (f, pin) hone h.nodup
  rw [outputs_find, outputs_find, hfind]
  simp only [Prod.mk.injEq]

theorem inputs_erase (h : Linked links) (hq : q ∈ links) (f : MSFilter) (pin : Nat) :
    inputs (links.erase q) f pin =
      if f = q.f2 ∧ pin = q.pin2 then none else inputs links f pin := by
  have hone : ∀ r ∈ links, (r.f2, r.pin2) = (q.f2, q.pin2) → r = q := fun r hr heq =>
    h.inp r hr q hq (Prod.mk.inj heq).1 (Prod.mk.inj heq).2
  have hfind := find_erase (fun q : MSQueue => (q.f2, q.pin2)) (f, pin) hone h.nodup
  rw [inputs_find, inputs_find, hfind]
  simp only [Prod.mk.injEq]

/-! ## The two models -/

theorem put_tables {r : Option MSQueue} {links' : Links} (h1 : pin1 < f1.noutputs)
    (h2 : pin2 < f2.ninputs)
    (hout : ∀ f pin, outputs links' f pin = if f = f1 ∧ pin = pin1 then r else outputs links f pin)
    (hin : ∀ f pin, inputs links' f pin = if f = f2 ∧ pin = pin2 then r else inputs links f pin) :
    (tables links).put f1 pin1 f2 pin2 (r.map MSQueue.queue) = tables links' := by
  refine tables_eq (fun f pin => ?_) fun f pin => ?_
  · rw [ticker.put_inputs pin (tables_input.trans (if_pos h2)), tables_input, tables_input, hin]
    by_cases hpin : f = f2 ∧ pin = pin2
    · obtain ⟨rfl, rfl⟩ := hpin
      rw [if_pos ⟨rfl, rfl⟩, if_pos h2, if_pos ⟨rfl, rfl⟩]
    · rw [if_neg hpin, if_neg hpin]
  · rw [ticker.put_outputs pin (tables_output.trans (if_pos h1)), tables_output, tables_output, hout]
    by_cases hpin : f = f1 ∧ pin = pin1
    · obtain ⟨rfl, rfl⟩ := hpin
      rw [if_pos ⟨rfl, rfl⟩, if_pos h1, if_pos ⟨rfl, rfl⟩]
    · rw [if_neg hpin, if_neg hpin]

theorem output_count : ((tables links).outputs f).length = f.noutputs := by simp [tables]

theorem input_count : ((tables links).inputs f).length = f.ninputs := by simp [tables]

/-- A link does the same to the tables. -/
theorem link_tables (links : Links) (f1 : MSFilter) (pin1 : Nat) (f2 : MSFilter) (pin2 : Nat) :
    ticker.ms_filter_link (tables links) f1 pin1 f2 pin2 =
      ((ms_filter_link links f1 pin1 f2 pin2).1,
        tables (ms_filter_link links f1 pin1 f2 pin2).2) := by
  unfold ticker.ms_filter_link ms_filter_link
  rw [output_count, input_count]
  by_cases h1 : pin1 < f1.noutputs
  swap
  · rw [if_pos (Nat.not_lt.mp h1), if_pos h1]
  rw [if_neg (Nat.not_le.mpr h1), if_neg (not_not.mpr h1)]
  by_cases h2 : pin2 < f2.ninputs
  swap
  · rw [if_pos (Nat.not_lt.mp h2), if_pos h2]
  rw [if_neg (Nat.not_le.mpr h2), if_neg (not_not.mpr h2), tables_output, if_pos h1, tables_input,
    if_pos h2]
  cases hout : outputs links f1 pin1 with
  | some q => rfl
  | none =>
    cases hin : inputs links f2 pin2 with
    | some q => rfl
    | none =>
      have hput := put_tables h1 h2 (outputs_append (q := ⟨f1, pin1, f2, pin2⟩) hout)
        (inputs_append (q := ⟨f1, pin1, f2, pin2⟩) hin)
      simp only [Option.map_none, ne_eq, not_true_eq_false, if_false]
      exact Prod.ext rfl hput

/-- An unlink does the same to the tables. -/
theorem unlink_tables (h : Linked links) (f1 : MSFilter) (pin1 : Nat) (f2 : MSFilter)
    (pin2 : Nat) :
    ticker.ms_filter_unlink (tables links) f1 pin1 f2 pin2 =
      ((ms_filter_unlink links f1 pin1 f2 pin2).1,
        tables (ms_filter_unlink links f1 pin1 f2 pin2).2) := by
  unfold ticker.ms_filter_unlink ms_filter_unlink
  rw [output_count, input_count]
  by_cases h1 : pin1 < f1.noutputs
  swap
  · rw [if_pos (Nat.not_lt.mp h1), if_pos h1]
  rw [if_neg (Nat.not_le.mpr h1), if_neg (not_not.mpr h1)]
  by_cases h2 : pin2 < f2.ninputs
  swap
  · rw [if_pos (Nat.not_lt.mp h2), if_pos h2]
  rw [if_neg (Nat.not_le.mpr h2), if_neg (not_not.mpr h2), tables_output, if_pos h1, tables_input,
    if_pos h2]
  cases hout : outputs links f1 pin1 with
  | none => rfl
  | some q =>
    cases hin : inputs links f2 pin2 with
    | none => rfl
    | some r =>
      by_cases hqr : q = r
      · subst hqr
        obtain ⟨hmem, rfl, rfl⟩ := outputs_some hout
        obtain ⟨-, rfl, rfl⟩ := inputs_some hin
        have hput := put_tables (r := none) h1 h2 (outputs_erase h hmem) (inputs_erase h hmem)
        simp only [Option.map_some, Option.some.injEq, reduceCtorEq, ne_eq, not_true_eq_false,
          if_false, if_true]
        exact Prod.ext rfl hput
      · have hqueue : q.queue ≠ r.queue := fun heq => hqr (queue_injective heq)
        simp only [Option.map_some, Option.some.injEq, reduceCtorEq, ne_eq, hqueue,
          not_false_eq_true, if_false, if_true, hqr]

/-- The tables of links with one queue at a pin are as the ticker needs them. -/
theorem tables_consistent (h : Linked links) (hrange : InRange links) :
    (tables links).Consistent where
  outputs f i l hl := by
    rw [tables_output] at hl
    split at hl
    · obtain ⟨q, hq, rfl⟩ := Option.map_eq_some_iff.mp (Option.some.inj hl)
      obtain ⟨hmem, rfl, rfl⟩ := outputs_some hq
      refine ⟨rfl, rfl, (tables_input.trans (if_pos (hrange q hmem).2)).trans ?_⟩
      rw [inputs_mem h hmem]
      rfl
    · cases hl
  inputs f i l hl := by
    rw [tables_input] at hl
    split at hl
    · obtain ⟨q, hq, rfl⟩ := Option.map_eq_some_iff.mp (Option.some.inj hl)
      obtain ⟨hmem, rfl, rfl⟩ := inputs_some hq
      refine ⟨rfl, rfl, (tables_output.trans (if_pos (hrange q hmem).1)).trans ?_⟩
      rw [outputs_mem h hmem]
      rfl
    · cases hl

end

end zonekey_mcu.filter_graph

namespace zonekey_mcu.director

open filter_graph

theorem first_in_range : InRange first_links := by
  unfold InRange
  decide

theorem Wired.in_range {f : Filters} {ws : List Wire} (h : Wired f ws) : InRange f.links := by
  intro q hq
  rcases h.known q hq with hfirst | ⟨w, hw, rfl | ⟨-, rfl⟩⟩
  · exact first_in_range q hfirst
  · have hcid := h.range w hw
    unfold Wire.source_link
    refine ⟨Nat.zero_lt_one, ?_⟩
    dsimp only
    split <;> exact Nat.lt_of_lt_of_le hcid (by decide)
  · have hcid := h.range w hw
    unfold Wire.sink_link
    refine ⟨?_, Nat.zero_lt_one⟩
    dsimp only
    split <;> exact Nat.lt_of_lt_of_le hcid (by decide)

end zonekey_mcu.director

namespace zonekey_mcu.conference

open filter_graph runs members

/-- After any calls, the links of a conference are a graph that its tickers can run. -/
theorem run_tables {type : ConferenceType} {env : Env} {want_alpha : Nat → Int} {id : Int}
    {calls : List Call} {c : Conference}
    (hrun : run step (Conference.new type env want_alpha id) calls = .ok c) :
    (tables c.filters.links).Consistent := by
  have hwired := (sound_run hrun).wired
  exact tables_consistent hwired.linked hwired.in_range

end zonekey_mcu.conference
