-- How the streams of a director conference are wired to its mixers. Each stream
-- keeps the number of its channel, and the links of the filters agree with it.
import ZonekeyMcu.DirectorFilters
import ZonekeyMcu.ZOrder
import Mathlib.Data.List.Perm.Subperm

open zonekey_mcu.members zonekey_mcu.options zonekey_mcu.filter_graph

namespace zonekey_mcu.director

/-! ## Numbers that are in use -/

/-- When all numbers below `i` are in use, at least `i` numbers are. -/
theorem le_length_of_used {used : List Nat} {i : Nat} (h : ∀ j < i, j ∈ used) :
    i ≤ used.length := by
  have hsub : List.range i ⊆ used := fun j hj => h j (List.mem_range.mp hj)
  simpa using (List.subperm_of_subset List.nodup_range hsub).length_le

/-- Of `n` numbers one is free when fewer than `n` are in use. -/
theorem exists_unused {used : List Nat} {n : Nat} (h : used.length < n) : ∃ i < n, i ∉ used := by
  by_contra hno
  push Not at hno
  have := le_length_of_used hno
  omega

/-! ## What a stream means for the filters -/

/-- The part of a stream that the links depend on. -/
structure Wire where
  ptr : Ptr
  payload_ : Int
  cid_ : Nat
  support_sink : Bool

def wire (s : Stream) : Wire where
  ptr := s.ptr
  payload_ := s.payload_
  cid_ := s.cid_
  support_sink := s.support_sink

@[simp] theorem wire_cid (s : Stream) (cid : Nat) : (wire (s.set_channel_id cid)).cid_ = cid := rfl

def Wire.is_video (w : Wire) : Bool := w.payload_ = 100

def Wire.is_audio (w : Wire) : Bool := is_audio_payload w.payload_

/-- From the source filter of a stream to its mixer. -/
def Wire.source_link (w : Wire) : MSQueue :=
  ⟨.source_filter w.ptr, 0, if w.is_video then .video_mixer_ else .audio_mixer_, w.cid_⟩

/-- From the mixer, or the tee after it, to the sink filter of a stream. -/
def Wire.sink_link (w : Wire) : MSQueue :=
  ⟨if w.is_video then .video_tee_ else .audio_mixer_, w.cid_, .sink_filter w.ptr, 0⟩

/-- The links that a stream can have. -/
def Wire.has_link (w : Wire) (q : MSQueue) : Prop :=
  q = w.source_link ∨ w.support_sink = true ∧ q = w.sink_link

/-- The filters agree with the live streams. -/
structure Wired (f : Filters) (ws : List Wire) : Prop where
  linked : Linked f.links
  first : ∀ q ∈ first_links, q ∈ f.links
  known : ∀ q ∈ f.links, q ∈ first_links ∨ ∃ w ∈ ws, w.has_link q
  payloads : ∀ w ∈ ws, w.is_video = true ∨ w.is_audio = true
  sinks : ∀ w ∈ ws, w.support_sink = true → w.sink_link ∈ f.links
  videos : ∀ w ∈ ws, w.is_video = true → w.source_link ∈ f.links
  audio_cnt : f.audio_stream_cnt_ = (ws.filter Wire.is_audio).length
  video_cnt : f.video_stream_cnt_ = (ws.filter Wire.is_video).length
  channels : ((ws.filter Wire.is_video).map Wire.cid_).Nodup
  range : ∀ w ∈ ws, w.cid_ < MAX_STREAMS
  employed : ∀ i < video_mixer.MAX_CHANNELS, (f.video_mixer.channels_ i).idle_ = false ↔
    i ∈ (ws.filter Wire.is_video).map Wire.cid_

theorem video_not_audio {w : Wire} (h : w.is_video = true) : w.is_audio = false := by
  have hp : w.payload_ = 100 := by simpa [Wire.is_video] using h
  simp [Wire.is_audio, is_audio_payload, hp]

theorem first_linked : Linked first_links := by
  refine ⟨?_, ?_, by decide⟩ <;> decide

theorem new_wired (want_alpha : Nat → Int) : Wired (Filters.new want_alpha) [] where
  linked := first_linked
  first _ hq := hq
  known _ hq := Or.inl hq
  payloads _ hw := absurd hw List.not_mem_nil
  sinks _ hw := absurd hw List.not_mem_nil
  videos _ hw := absurd hw List.not_mem_nil
  audio_cnt := rfl
  video_cnt := rfl
  channels := List.nodup_nil
  range _ hw := absurd hw List.not_mem_nil
  employed i _ := by simp [Filters.new, video_mixer.CTX.new, video_mixer.InputSource.new]

/-! ## Links and unlinks -/

section

variable {links : Links} {f1 f2 : MSFilter} {pin1 pin2 : Nat}

/-- A link joins two free pins, or changes nothing. -/
theorem link_cases (links : Links) (f1 : MSFilter) (pin1 : Nat) (f2 : MSFilter) (pin2 : Nat) :
    (ms_filter_link links f1 pin1 f2 pin2).2 = links ∨
    (outputs links f1 pin1 = none ∧ inputs links f2 pin2 = none ∧
      (ms_filter_link links f1 pin1 f2 pin2).2 = links ++ [⟨f1, pin1, f2, pin2⟩]) := by
  unfold ms_filter_link
  split
  · exact Or.inl rfl
  · split
    · exact Or.inl rfl
    · split
      · exact Or.inl rfl
      · rename_i hout
        split
        · exact Or.inl rfl
        · rename_i hin
          exact Or.inr ⟨not_not.mp hout, not_not.mp hin, rfl⟩

/-- An unlink takes out the queue between the pins, if there is one. -/
theorem unlink_eq (h : Linked links) (h1 : pin1 < f1.noutputs) (h2 : pin2 < f2.ninputs) :
    (ms_filter_unlink links f1 pin1 f2 pin2).2 = links.erase ⟨f1, pin1, f2, pin2⟩ := by
  by_cases hq : (⟨f1, pin1, f2, pin2⟩ : MSQueue) ∈ links
  · rw [unlink_mem h h1 h2 hq]
  · rw [List.erase_of_not_mem hq]
    unfold ms_filter_unlink
    rw [if_neg (not_not.mpr h1), if_neg (not_not.mpr h2)]
    cases hout : outputs links f1 pin1 with
    | none => rfl
    | some q =>
      cases hin : inputs links f2 pin2 with
      | none => rfl
      | some r =>
        have hqout := List.find?_some hout
        have hrin := List.find?_some hin
        simp only [decide_eq_true_eq] at hqout hrin
        have hne : q ≠ r := by
          rintro rfl
          apply hq
          obtain ⟨a, b, c, d⟩ := q
          obtain ⟨⟨rfl, rfl⟩, rfl, rfl⟩ := And.intro hqout hrin
          exact List.mem_of_find?_eq_some hout
        simp only [if_neg hne]

end

/-! ## The video mixer never asserts -/

section

open video_mixer

variable {m : CTX}

/-- A scan fails when nothing in the array stops it. -/
theorem scan_error {stop : Int → Bool} {zs : List Int} {i : Nat} {e : Fault}
    (h : scan stop zs i = .error e) : e = .outOfBounds ∧ ∀ z ∈ zs, stop z = false := by
  induction zs generalizing i with
  | nil =>
    cases h
    exact ⟨rfl, fun z hz => absurd hz List.not_mem_nil⟩
  | cons z zs ih =>
    unfold scan at h
    split at h
    · cases h
    · rename_i hz
      obtain ⟨he, hrest⟩ := ih h
      exact ⟨he, List.forall_mem_cons.mpr ⟨by simpa using hz, hrest⟩⟩

theorem close_gap_error {zs : List Int} {e : Fault} (h : close_gap zs = .error e) :
    e = .outOfBounds ∧ (-1 : Int) ∉ zs := by
  induction zs with
  | nil =>
    cases h
    exact ⟨rfl, List.not_mem_nil⟩
  | cons z zs ih =>
    unfold close_gap at h
    split at h
    · cases h
    · rename_i hz
      have hne : ¬ (-1 : Int) = z := fun hn => hz hn.symm
      cases zs with
      | nil =>
        cases h
        exact ⟨rfl, by simpa using hne⟩
      | cons next rest =>
        cases hrest : close_gap (next :: rest) with
        | ok t => simp [hrest, Except.map] at h
        | error e' =>
          simp only [hrest, Except.map, Except.error.injEq] at h
          rw [h] at hrest
          obtain ⟨he, hno⟩ := ih hrest
          exact ⟨he, fun hm => (List.mem_cons.mp hm).elim hne hno⟩

/-- A slot that holds -1 still does so when a gap before it is closed. -/
theorem close_gap_keeps {zs ts : List Int} (h : close_gap zs = .ok ts) {k : Nat}
    (hk : zs[k]? = some (-1)) : ts[k]? = some (-1) := by
  induction zs generalizing ts k with
  | nil => cases h
  | cons z zs ih =>
    unfold close_gap at h
    split at h
    · cases h
      exact hk
    · rename_i hz
      cases zs with
      | nil => cases h
      | cons next rest =>
        cases hrest : close_gap (next :: rest) with
        | error e => simp [hrest, Except.map] at h
        | ok t =>
          simp only [hrest, Except.map, Except.ok.injEq] at h
          rw [← h]
          cases k with
          | zero => exact absurd (by simpa using hk) hz
          | succ k => exact ih hrest hk

theorem get_channel_error {e : Fault} (h : m.get_channel = .error e) :
    e = .outOfBounds ∧ ¬ m.has_end := by
  unfold CTX.get_channel at h
  split at h
  · cases h
  · dsimp only at h
    split at h
    · rename_i hscan
      cases h
      obtain ⟨he, hno⟩ := scan_error hscan
      exact ⟨he, fun hend => absurd (hno _ (has_end_mem hend)) (by decide)⟩
    · cases h

/-- The order depends only on the array and on which channels are in use. -/
theorem ordered_congr {m' : CTX} (h : Ordered m) (hz : m'.zorder_ = m.zorder_)
    (hidle : ∀ i, (m'.channels_ i).idle_ = (m.channels_ i).idle_) : Ordered m' := by
  obtain ⟨l, h⟩ := h
  refine ⟨l, hz.trans h.array, h.nodup, fun i => ?_⟩
  rw [h.employed i]
  simp only [CTX.Employed, hidle]

theorem get_channel_ordered (h : Ordered m) :
    ∃ c m', m.get_channel = .ok (c, m') ∧ Ordered m' := by
  obtain ⟨l, h⟩ := h
  rcases get_channel_orders h with ⟨hget, -⟩ | ⟨i, m', hget, -, -, h'⟩
  · exact ⟨-1, m, hget, l, h⟩
  · exact ⟨i, m', hget, _, h'⟩

theorem free_channel_ordered (h : Ordered m) (cid : Int) :
    ∃ rc m', m.free_channel cid = .ok (rc, m') ∧ Ordered m' := by
  obtain ⟨l, h⟩ := h
  obtain ⟨rc, m', hfree, h'⟩ := free_channel_orders h cid
  exact ⟨rc, m', hfree, _, h'⟩

/-- A channel that is given back is idle, and the others stay as they are. The end of the
array stays, and without it the gap cannot be closed. -/
theorem free_channel_cases {cid : Nat} (hcid : cid < MAX_CHANNELS) :
    (∃ zorder_, m.free_channel cid = .ok (0, { m.set_channel cid (m.channels_ cid).disemploy with
      zorder_ }) ∧ (m.has_end → zorder_[MAX_CHANNELS]? = some (-1))) ∨
    (m.free_channel cid = .error .outOfBounds ∧ ¬ m.has_end) := by
  have hrange : 0 ≤ (cid : Int) ∧ (cid : Int) < MAX_CHANNELS := by omega
  unfold CTX.free_channel
  rw [if_pos hrange]
  dsimp only
  rw [Int.toNat_natCast]
  simp only [set_channel_zorder]
  have hgap : (m.zorder_.take MAX_CHANNELS).findIdx (· == (cid : Int)) ≤ MAX_CHANNELS :=
    Nat.le_trans List.findIdx_le_length (List.length_take_le _ _)
  revert hgap
  generalize (m.zorder_.take MAX_CHANNELS).findIdx (· == (cid : Int)) = i
  intro hgap
  split
  · rename_i e htail
    obtain ⟨rfl, hno⟩ := close_gap_error htail
    exact Or.inr ⟨rfl, fun hend => hno (has_end_drop hend hgap)⟩
  · rename_i tail htail
    refine Or.inl ⟨_, rfl, fun hend => ?_⟩
    unfold CTX.has_end at hend
    have hlen : (m.zorder_.take i).length = i := by
      have := (List.getElem?_eq_some_iff.mp hend).1
      rw [List.length_take]
      omega
    rw [List.getElem?_append_right (by omega), hlen]
    apply close_gap_keeps htail
    rwa [List.getElem?_drop, Nat.add_sub_cancel' hgap]

/-- The channel with a new place. -/
def placed (s : InputSource) (desc : ChannelDesc) : InputSource :=
  { s with
    want_x_ := desc.x
    want_y_ := desc.y
    want_width_ := desc.width
    want_height_ := desc.height
    want_alpha_ := desc.alpha }

/-- A new description reaches its channel when the channel is in use, and no other
channel. -/
theorem set_channel_desc_cases (m : CTX) (desc : ChannelDesc) :
    (m.set_channel_desc desc = .ok (-1, m) ∧ ¬ m.Employed desc.id) ∨
    (m.Employed desc.id ∧ m.set_channel_desc desc =
      .ok (0, m.set_channel desc.id.toNat (placed (m.channels_ desc.id.toNat) desc))) := by
  unfold CTX.set_channel_desc CTX.Employed
  by_cases hr : desc.id < 0 ∨ (MAX_CHANNELS : Int) ≤ desc.id
  · left
    rw [if_pos hr]
    exact ⟨rfl, by omega⟩
  · rw [if_neg hr]
    cases hidle : (m.channels_ desc.id.toNat).idle_ with
    | true =>
      left
      simp
    | false =>
      right
      refine ⟨⟨by omega, by omega, rfl⟩, ?_⟩
      simp [InputSource.set_param, hidle, placed]

theorem map_error {α β ε : Type} {x : Except ε α} {f : α → β} {e : ε} (h : x.map f = .error e) :
    x = .error e := by
  cases x with
  | ok a => cases h
  | error e' => cases h; rfl

theorem rezorder_up_error {id : Int} {zs : List Int} {e : Fault}
    (h : rezorder_up id zs = .error e) : e = .outOfBounds ∧ (-1 : Int) ∉ zs.tail := by
  fun_induction rezorder_up id zs with
  | case1 => cases h
  | case2 => cases h
  | case3 a b rest hb _ ih =>
    obtain ⟨he, hno⟩ := ih (map_error h)
    exact ⟨he, fun hm => (List.mem_cons.mp hm).elim (fun hn => hb hn.symm) hno⟩
  | case4 zs hshort =>
    cases h
    refine ⟨rfl, ?_⟩
    match zs, hshort with
    | [], _ => exact List.not_mem_nil
    | [_], _ => exact List.not_mem_nil
    | a :: b :: rest, hshort => exact absurd rfl (hshort a b rest)

theorem rezorder_top_error {id : Int} {zs : List Int} {e : Fault}
    (h : rezorder_top id zs = .error e) : e = .outOfBounds ∧ (-1 : Int) ∉ zs.tail := by
  fun_induction rezorder_top id zs with
  | case1 => cases h
  | case2 rest b hb ih =>
    obtain ⟨he, hno⟩ := ih (map_error h)
    exact ⟨he, fun hm => (List.mem_cons.mp hm).elim (fun hn => hb hn.symm) hno⟩
  | case3 a b rest hb _ ih =>
    obtain ⟨he, hno⟩ := ih (map_error h)
    exact ⟨he, fun hm => (List.mem_cons.mp hm).elim (fun hn => hb hn.symm) hno⟩
  | case4 zs hshort =>
    cases h
    refine ⟨rfl, ?_⟩
    match zs, hshort with
    | [], _ => exact List.not_mem_nil
    | [_], _ => exact List.not_mem_nil
    | a :: b :: rest, hshort => exact absurd rfl (hshort a b rest)

theorem rezorder_down_error {id : Int} {zs : List Int} {e : Fault}
    (h : rezorder_down id zs = .error e) : e = .outOfBounds ∧ (-1 : Int) ∉ zs := by
  unfold rezorder_down at h
  split at h
  · rename_i hscan
    cases h
    obtain ⟨he, hno⟩ := scan_error hscan
    exact ⟨he, fun hm => absurd (hno _ hm) (by simp)⟩
  · split at h <;> cases h

theorem rezorder_bottom_error {id : Int} {zs : List Int} {e : Fault}
    (h : rezorder_bottom id zs = .error e) : e = .outOfBounds ∧ (-1 : Int) ∉ zs := by
  unfold rezorder_bottom at h
  split at h
  · rename_i hscan
    cases h
    obtain ⟨he, hno⟩ := scan_error hscan
    exact ⟨he, fun hm => absurd (hno _ hm) (by simp)⟩
  · split at h <;> cases h

/-- A move changes only the order, and fails only when the array has lost its end. -/
theorem rezorder_cases (m : CTX) (id : Int) (oper : ZOrderOper) :
    (∃ rc zorder_, m.rezorder id oper = .ok (rc, { m with zorder_ })) ∨
      (m.rezorder id oper = .error .outOfBounds ∧ ¬ m.has_end) := by
  by_cases hr : id < 0 ∨ (MAX_CHANNELS : Int) ≤ id
  · exact Or.inl ⟨-1, m.zorder_, rezorder_invalid oper hr⟩
  · unfold CTX.rezorder
    rw [if_neg hr]
    dsimp only
    split
    · rename_i e hmove
      right
      cases oper with
      | UP =>
        obtain ⟨rfl, hno⟩ := rezorder_up_error hmove
        exact ⟨rfl, fun hend => hno (has_end_tail hend)⟩
      | DOWN =>
        obtain ⟨rfl, hno⟩ := rezorder_down_error hmove
        exact ⟨rfl, fun hend => hno (has_end_mem hend)⟩
      | TOP =>
        obtain ⟨rfl, hno⟩ := rezorder_top_error hmove
        exact ⟨rfl, fun hend => hno (has_end_tail hend)⟩
      | BOTTOM =>
        obtain ⟨rfl, hno⟩ := rezorder_bottom_error hmove
        exact ⟨rfl, fun hend => hno (has_end_mem hend)⟩
    · exact Or.inl ⟨0, _, rfl⟩

end

/-! ## A stream is wired up, or taken out -/

/-- What the links of the constructor use. -/
theorem first_pins {q : MSQueue} (hq : q ∈ first_links) (p : Ptr) :
    q.f1 ≠ .source_filter p ∧ q.f2 ≠ .sink_filter p ∧ q.f2 ≠ .audio_mixer_ ∧
      q.f2 ≠ .video_mixer_ ∧ (q.f1 = .audio_mixer_ → q.pin1 = audio_mixer.PREVIEW_PIN) ∧
      (q.f1 = .video_tee_ → q.pin1 = MAX_STREAMS) := by
  simp only [first_links, List.mem_cons, List.not_mem_nil, or_false] at hq
  rcases hq with rfl | rfl | rfl | rfl | rfl <;> simp

/-- The two links of a new stream, in the order of the source. -/
def wire_up (links : Links) (w : Wire) : Links :=
  let links := (ms_filter_link links w.source_link.f1 0 w.source_link.f2 w.cid_).2
  if w.support_sink then (ms_filter_link links w.sink_link.f1 w.cid_ w.sink_link.f2 0).2 else links

/-- The two unlinks of a stream that goes. -/
def wire_down (links : Links) (w : Wire) : Links :=
  let links := (ms_filter_unlink links w.source_link.f1 0 w.source_link.f2 w.cid_).2
  if w.support_sink then (ms_filter_unlink links w.sink_link.f1 w.cid_ w.sink_link.f2 0).2
  else links

theorem source_link_eq (w : Wire) :
    (⟨w.source_link.f1, 0, w.source_link.f2, w.cid_⟩ : MSQueue) = w.source_link := rfl

theorem sink_link_eq (w : Wire) :
    (⟨w.sink_link.f1, w.cid_, w.sink_link.f2, 0⟩ : MSQueue) = w.sink_link := rfl

/-- The pins of a stream are within the mixers. -/
theorem wire_pins {w : Wire} (hcid : w.cid_ < MAX_STREAMS) :
    w.cid_ < w.source_link.f2.ninputs ∧ w.cid_ < w.sink_link.f1.noutputs := by
  have h9 : MAX_STREAMS = 9 := rfl
  have h20 : video_mixer.MAX_CHANNELS = 20 := rfl
  have h20' : audio_mixer.MIXER_MAX_CHANNELS = 20 := rfl
  have h10 : MS_TEE_NOUTPUTS = 10 := rfl
  unfold Wire.source_link Wire.sink_link
  constructor <;> dsimp only <;> split <;> simp only [MSFilter.ninputs, MSFilter.noutputs] <;> omega

section

variable {f : Filters} {ws : List Wire} {w : Wire}

/-- No link has the filters of a stream that is new. -/
theorem Wired.unlinked (h : Wired f ws) {p : Ptr} (hp : ∀ w ∈ ws, w.ptr ≠ p) :
    ∀ q ∈ f.links, q.f1 ≠ .source_filter p ∧ q.f2 ≠ .sink_filter p := by
  intro q hq
  rcases h.known q hq with hfirst | ⟨w, hw, rfl | ⟨-, rfl⟩⟩
  · have hpins := first_pins hfirst p
    exact ⟨hpins.1, hpins.2.1⟩
  · have := hp w hw
    simp only [Wire.source_link]
    split <;> simp [this]
  · have := hp w hw
    simp only [Wire.sink_link]
    split <;> simp [this]

/-- The first link of a new stream. It fails when the input pin is taken. -/
theorem Wired.wire_source (h : Wired f ws) (hp : ∀ w' ∈ ws, w'.ptr ≠ w.ptr)
    (hcid : w.cid_ < MAX_STREAMS) : ∃ links,
      (ms_filter_link f.links w.source_link.f1 0 w.source_link.f2 w.cid_).2 = links ∧
      Linked links ∧ (∀ q ∈ f.links, q ∈ links) ∧
      (∀ q ∈ links, q ∈ f.links ∨ q = w.source_link) ∧
      (inputs f.links w.source_link.f2 w.cid_ = none → w.source_link ∈ links) := by
  refine ⟨_, rfl, ?_⟩
  have hfree : inputs f.links w.source_link.f2 w.cid_ = none →
      (ms_filter_link f.links w.source_link.f1 0 w.source_link.f2 w.cid_).2 =
        f.links ++ [w.source_link] := by
    intro hin
    have hout : outputs f.links w.source_link.f1 0 = none :=
      outputs_none.mpr fun q hq hf => absurd hf (h.unlinked hp q hq).1
    rw [link_free Nat.one_pos (wire_pins hcid).1 hout hin, source_link_eq]
  rcases link_cases f.links w.source_link.f1 0 w.source_link.f2 w.cid_ with
    hsame | ⟨hout, hin, happend⟩
  · rw [hsame] at hfree ⊢
    refine ⟨h.linked, fun _ hq => hq, fun _ hq => Or.inl hq, fun hin => ?_⟩
    rw [hfree hin]
    exact List.mem_append_right _ (List.mem_singleton_self _)
  · rw [happend]
    refine ⟨h.linked.append hout hin, fun _ hq => List.mem_append_left _ hq, ?_, fun _ => ?_⟩
    · intro q hq
      rcases List.mem_append.mp hq with hq | hq
      · exact Or.inl hq
      · exact Or.inr (List.mem_singleton.mp hq)
    · exact List.mem_append_right _ (List.mem_singleton_self _)

/-- The links after a new stream was wired up, when its output pin is free. -/
theorem Wired.wire_up (h : Wired f ws) (hp : ∀ w' ∈ ws, w'.ptr ≠ w.ptr)
    (hcid : w.cid_ < MAX_STREAMS) (hout : outputs f.links w.sink_link.f1 w.cid_ = none) :
    Linked (wire_up f.links w) ∧ (∀ q ∈ f.links, q ∈ wire_up f.links w) ∧
      (∀ q ∈ wire_up f.links w, q ∈ f.links ∨ w.has_link q) ∧
      (w.support_sink = true → w.sink_link ∈ wire_up f.links w) ∧
      (inputs f.links w.source_link.f2 w.cid_ = none → w.source_link ∈ wire_up f.links w) := by
  obtain ⟨links, heq, hlinked, hold, hnew, hin⟩ := h.wire_source hp hcid
  unfold director.wire_up
  rw [heq]
  dsimp only
  cases hsink : w.support_sink with
  | false =>
    rw [if_neg (by decide)]
    refine ⟨hlinked, hold, fun q hq => ?_, fun hn => (by cases hn), hin⟩
    exact (hnew q hq).imp_right Or.inl
  | true =>
    have hout' : outputs links w.sink_link.f1 w.cid_ = none := by
      rw [outputs_none] at hout ⊢
      intro q hq hf
      rcases hnew q hq with hq | rfl
      · exact hout q hq hf
      · unfold Wire.sink_link at hf
        dsimp only [Wire.source_link] at hf
        split at hf <;> cases hf
    have hin' : inputs links w.sink_link.f2 0 = none := by
      rw [inputs_none]
      intro q hq hf
      rcases hnew q hq with hq | rfl
      · exact absurd hf (h.unlinked hp q hq).2
      · unfold Wire.source_link at hf
        dsimp only [Wire.sink_link] at hf
        split at hf <;> cases hf
    rw [if_pos rfl, link_free (wire_pins hcid).2 Nat.one_pos hout' hin', sink_link_eq]
    refine ⟨hlinked.append hout' hin', fun q hq => List.mem_append_left _ (hold q hq), ?_,
      fun _ => List.mem_append_right _ (List.mem_singleton_self _),
      fun hn => List.mem_append_left _ (hin hn)⟩
    intro q hq
    rcases List.mem_append.mp hq with hq | hq
    · exact (hnew q hq).imp_right Or.inl
    · exact Or.inr (Or.inr ⟨hsink, List.mem_singleton.mp hq⟩)

/-- The links after a stream was taken out. -/
theorem wire_down_links {links : Links} (h : Linked links) (hcid : w.cid_ < MAX_STREAMS) :
    Linked (wire_down links w) ∧ ∀ q, q ∈ wire_down links w ↔ q ∈ links ∧ ¬ w.has_link q := by
  unfold director.wire_down
  rw [unlink_eq h Nat.one_pos (wire_pins hcid).1, source_link_eq]
  have hsource := h.erase w.source_link
  dsimp only
  cases hsink : w.support_sink with
  | false =>
    rw [if_neg (by decide)]
    refine ⟨hsource, fun q => ?_⟩
    rw [h.nodup.mem_erase_iff]
    simp [Wire.has_link, hsink, and_comm]
  | true =>
    rw [if_pos rfl, unlink_eq hsource (wire_pins hcid).2 Nat.one_pos, sink_link_eq]
    refine ⟨hsource.erase _, fun q => ?_⟩
    rw [hsource.nodup.mem_erase_iff, h.nodup.mem_erase_iff]
    simp only [Wire.has_link, hsink, true_and, not_or]
    tauto

end

end zonekey_mcu.director
