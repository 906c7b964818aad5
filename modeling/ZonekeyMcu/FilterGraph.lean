-- The links between the filters of a director conference. A queue joins one
-- output pin of a filter to one input pin of another.
import ZonekeyMcu.VideoMixer
import ZonekeyMcu.AudioMixer
import ZonekeyMcu.Lib.ListMoves
import Mathlib.Data.List.Nodup

namespace zonekey_mcu.filter_graph

/-- `MAX_STREAMS`: the most audio streams, and the most video streams, of one
conference. -/
def MAX_STREAMS : Nat := 9

/-- The filters that `DirectorConference` links. A stream has a source filter
and a sink filter, and `stream` is its pointer. -/
inductive MSFilter
  | audio_mixer_
  | video_mixer_
  | video_tee_
  | audio_resample_
  | audio_encoder_
  | audio_publisher_
  | video_publisher_
  | source_filter (stream : Nat)
  | sink_filter (stream : Nat)
  deriving DecidableEq

/-- `MS_TEE_NOUTPUTS`. -/
def MS_TEE_NOUTPUTS : Nat := 10

def MSFilter.ninputs : MSFilter → Nat
  | audio_mixer_ => audio_mixer.MIXER_MAX_CHANNELS
  | video_mixer_ => video_mixer.MAX_CHANNELS
  | _ => 1

def MSFilter.noutputs : MSFilter → Nat
  | audio_mixer_ => audio_mixer.MIXER_MAX_CHANNELS
  | video_mixer_ => 2
  | video_tee_ => MS_TEE_NOUTPUTS
  | audio_publisher_ => 0
  | video_publisher_ => 0
  | _ => 1

/-- A queue, from output `pin1` of `f1` to input `pin2` of `f2`. -/
structure MSQueue where
  f1 : MSFilter
  pin1 : Nat
  f2 : MSFilter
  pin2 : Nat
  deriving DecidableEq

abbrev Links := List MSQueue

/-- `f->outputs[pin]`. -/
def outputs (links : Links) (f : MSFilter) (pin : Nat) : Option MSQueue :=
  links.find? fun q => q.f1 = f ∧ q.pin1 = pin

/-- `f->inputs[pin]`. -/
def inputs (links : Links) (f : MSFilter) (pin : Nat) : Option MSQueue :=
  links.find? fun q => q.f2 = f ∧ q.pin2 = pin

def ms_filter_link (links : Links) (f1 : MSFilter) (pin1 : Nat) (f2 : MSFilter) (pin2 : Nat) :
    Int × Links :=
  if ¬ pin1 < f1.noutputs then (-1, links)
  else if ¬ pin2 < f2.ninputs then (-1, links)
  else if outputs links f1 pin1 ≠ none then (-1, links)
  else if inputs links f2 pin2 ≠ none then (-1, links)
  else (0, links ++ [⟨f1, pin1, f2, pin2⟩])

def ms_filter_unlink (links : Links) (f1 : MSFilter) (pin1 : Nat) (f2 : MSFilter) (pin2 : Nat) :
    Int × Links :=
  if ¬ pin1 < f1.noutputs then (-1, links)
  else if ¬ pin2 < f2.ninputs then (-1, links)
  else match outputs links f1 pin1, inputs links f2 pin2 with
    | some q, some r => if q = r then (0, links.erase q) else (-1, links)
    | _, _ => (-1, links)

/-! ## The pins of a graph -/

/-- No pin has two queues. -/
structure Linked (links : Links) : Prop where
  out : ∀ q ∈ links, ∀ r ∈ links, q.f1 = r.f1 → q.pin1 = r.pin1 → q = r
  inp : ∀ q ∈ links, ∀ r ∈ links, q.f2 = r.f2 → q.pin2 = r.pin2 → q = r
  nodup : links.Nodup

theorem outputs_none {links : Links} {f : MSFilter} {pin : Nat} :
    outputs links f pin = none ↔ ∀ q ∈ links, q.f1 = f → q.pin1 ≠ pin := by
  simp [outputs, List.find?_eq_none]

theorem inputs_none {links : Links} {f : MSFilter} {pin : Nat} :
    inputs links f pin = none ↔ ∀ q ∈ links, q.f2 = f → q.pin2 ≠ pin := by
  simp [inputs, List.find?_eq_none]

section

variable {links : Links} {f1 f2 : MSFilter} {pin1 pin2 : Nat}

/-- A link to two free pins. -/
theorem link_free (h1 : pin1 < f1.noutputs) (h2 : pin2 < f2.ninputs)
    (hout : outputs links f1 pin1 = none) (hin : inputs links f2 pin2 = none) :
    ms_filter_link links f1 pin1 f2 pin2 = (0, links ++ [⟨f1, pin1, f2, pin2⟩]) := by
  simp [ms_filter_link, h1, h2, hout, hin]

/-- A link to an input pin that is taken fails, and changes nothing. -/
theorem link_taken (hin : inputs links f2 pin2 ≠ none) :
    ms_filter_link links f1 pin1 f2 pin2 = (-1, links) := by
  unfold ms_filter_link
  split
  · rfl
  · split
    · rfl
    · split
      · rfl
      · rfl

theorem Linked.append (h : Linked links) (hout : outputs links f1 pin1 = none)
    (hin : inputs links f2 pin2 = none) : Linked (links ++ [⟨f1, pin1, f2, pin2⟩]) := by
  rw [outputs_none] at hout
  rw [inputs_none] at hin
  refine ⟨?_, ?_, ?_⟩
  · intro q hq r hr hf hp
    rcases List.mem_append.mp hq with hq | hq <;> rcases List.mem_append.mp hr with hr | hr
    · exact h.out q hq r hr hf hp
    · rw [List.mem_singleton.mp hr] at hf hp
      exact absurd hp (hout q hq hf)
    · rw [List.mem_singleton.mp hq] at hf hp
      exact absurd hp.symm (hout r hr hf.symm)
    · rw [List.mem_singleton.mp hq, List.mem_singleton.mp hr]
  · intro q hq r hr hf hp
    rcases List.mem_append.mp hq with hq | hq <;> rcases List.mem_append.mp hr with hr | hr
    · exact h.inp q hq r hr hf hp
    · rw [List.mem_singleton.mp hr] at hf hp
      exact absurd hp (hin q hq hf)
    · rw [List.mem_singleton.mp hq] at hf hp
      exact absurd hp.symm (hin r hr hf.symm)
    · rw [List.mem_singleton.mp hq, List.mem_singleton.mp hr]
  · exact list_moves.nodup_append_one h.nodup fun hq => hout _ hq rfl rfl

theorem Linked.erase (h : Linked links) (q : MSQueue) : Linked (links.erase q) where
  out a ha b hb := h.out a (List.mem_of_mem_erase ha) b (List.mem_of_mem_erase hb)
  inp a ha b hb := h.inp a (List.mem_of_mem_erase ha) b (List.mem_of_mem_erase hb)
  nodup := h.nodup.erase q

/-- The queue at an output pin. -/
theorem outputs_mem (h : Linked links) {q : MSQueue} (hq : q ∈ links) :
    outputs links q.f1 q.pin1 = some q := by
  cases hfind : outputs links q.f1 q.pin1 with
  | none => exact absurd rfl (outputs_none.mp hfind q hq rfl)
  | some r =>
    have htest := List.find?_some hfind
    simp only [decide_eq_true_eq] at htest
    rw [h.out r (List.mem_of_find?_eq_some hfind) q hq htest.1 htest.2]

theorem inputs_mem (h : Linked links) {q : MSQueue} (hq : q ∈ links) :
    inputs links q.f2 q.pin2 = some q := by
  cases hfind : inputs links q.f2 q.pin2 with
  | none => exact absurd rfl (inputs_none.mp hfind q hq rfl)
  | some r =>
    have htest := List.find?_some hfind
    simp only [decide_eq_true_eq] at htest
    rw [h.inp r (List.mem_of_find?_eq_some hfind) q hq htest.1 htest.2]

/-- The unlink of a queue that is there. -/
theorem unlink_mem (h : Linked links) (h1 : pin1 < f1.noutputs) (h2 : pin2 < f2.ninputs)
    (hq : (⟨f1, pin1, f2, pin2⟩ : MSQueue) ∈ links) :
    ms_filter_unlink links f1 pin1 f2 pin2 = (0, links.erase ⟨f1, pin1, f2, pin2⟩) := by
  have hout : outputs links f1 pin1 = some ⟨f1, pin1, f2, pin2⟩ := outputs_mem h hq
  have hin : inputs links f2 pin2 = some ⟨f1, pin1, f2, pin2⟩ := inputs_mem h hq
  simp [ms_filter_unlink, h1, h2, hout, hin]

end

end zonekey_mcu.filter_graph
