-- The director of the older server, `ZonekeyConferenceDirector`. Each video stream takes a
-- channel of the mixer, and uses its number as the pin of the tee, too.
import ZonekeyMcu.FilterGraph
import ZonekeyMcu.Options
import ZonekeyMcu.Wiring
import ZonekeyMcu.Lib.Runs

open zonekey_mcu.options zonekey_mcu.members zonekey_mcu.video_mixer zonekey_mcu.filter_graph runs

namespace zonekey_mcu.zonekey_director

/-! ## The director -/

/-- `get_input()` and `get_output()` are the filters `source_filter ptr` and `sink_filter ptr`. -/
structure Stream where
  ptr : Ptr
  id : Int
  chid : Int
  deriving DecidableEq, Repr

/-- The output of the tee that goes to the publisher. -/
def PUBLISHER_PIN : Nat := 9

/-- The wanted place of a picture. -/
structure Layout where
  x : Int
  y : Int
  width : Int
  height : Int
  alpha : Int
  deriving DecidableEq, Repr

def layout_of (s : InputSource) : Layout where
  x := s.want_x_
  y := s.want_y_
  width := s.want_width_
  height := s.want_height_
  alpha := s.want_alpha_

/-- `streams` are the video streams that live, in the order of their creation. `due` is the
layout that each channel should have. -/
structure Director where
  mixer : CTX
  links : Links
  stream_id_ : Int
  next : Ptr
  streams : List Stream
  due : Nat → Layout

/-- The queues that the constructor makes. -/
def start_links : Links :=
  [⟨.video_mixer_, 1, .video_tee_, 0⟩, ⟨.video_tee_, PUBLISHER_PIN, .video_publisher_, 0⟩]

def Director.new (want_alpha : Nat → Int) : Director where
  mixer := CTX.new want_alpha
  links := start_links
  stream_id_ := 0
  next := 0
  streams := []
  due i := layout_of (InputSource.new (want_alpha i))

/-- The return values of the two links are not looked at. -/
def link_stream (links : Links) (s : Ptr) (ch : Nat) : Links :=
  let links := (ms_filter_link links (.source_filter s) 0 .video_mixer_ ch).2
  (ms_filter_link links .video_tee_ ch (.sink_filter s) 0).2

def unlink_stream (links : Links) (s : Ptr) (ch : Nat) : Links :=
  let links := (ms_filter_unlink links (.source_filter s) 0 .video_mixer_ ch).2
  (ms_filter_unlink links .video_tee_ ch (.sink_filter s) 0).2

/-- The channel of the new stream, if there is a free one. -/
def Director.insert_video_stream (d : Director) (s : Ptr) :
    Except Fault (Option Int × Director) :=
  match d.mixer.get_channel with
  | .error e => .error e
  | .ok (ch, mixer) =>
    if ch < 0 then .ok (none, d)
    else .ok (some ch, { d with mixer, links := link_stream d.links s ch.toNat })

/-- The channel stays employed. -/
def Director.remove_video_stream (d : Director) (s : Stream) : Director :=
  { d with links := unlink_stream d.links s.ptr s.chid.toNat }

/-- The layout that the parameters of a stream give. -/
def given_layout (params : KVS) : Option Layout :=
  if chk_params params ["x", "y", "width", "height", "alpha"] = none then
    some { x := param_i params "x", y := param_i params "y", width := param_i params "width"
           height := param_i params "height", alpha := param_i params "alpha" }
  else none

/-- No line of the code sets `desc.id`. -/
def set_layout (mixer : CTX) (layout : Layout) (desc_id : Int) : Except Fault CTX :=
  (mixer.set_channel_desc { id := desc_id, x := layout.x, y := layout.y, width := layout.width
                            height := layout.height, alpha := layout.alpha }).map (·.2)

/-- `desc_id` is what the memory of `desc.id` holds. -/
def Director.createStream (d : Director) (params : KVS) (id desc_id : Int) :
    Except Fault Director :=
  -- assert(chk_params(params, info, "payload", 0))
  if chk_params params ["payload"] ≠ none then .error .assertFailed
  else if param_i params "payload" = 100 then
    let s := d.next
    match { d with next := d.next + 1 }.insert_video_stream s with
    | .error e => .error e
    | .ok (none, d) => .ok d
    | .ok (some ch, d) =>
      let d := { d with streams := d.streams ++ [{ ptr := s, id := id, chid := ch }] }
      match given_layout params with
      | none => .ok d
      | some layout => (set_layout d.mixer layout desc_id).map fun mixer =>
        { d with mixer := mixer, due := Function.update d.due ch.toNat layout }
  else .ok d

def Director.add_stream (d : Director) (params : KVS) (desc_id : Int) : Except Fault Director :=
  if chk_params params ["client_ip", "client_port", "payload"] ≠ none then .ok d
  else
    let id := d.stream_id_ + 1
    let id := if 0x7ffffffe < id then 0 else id
    { d with stream_id_ := id }.createStream params id desc_id

/-- `freeStream` of the stream at `ptr`. -/
def Director.freeStream (d : Director) (ptr : Ptr) : Except Fault Director :=
  match d.streams.find? fun s => s.ptr = ptr with
  | none => .error .useAfterDelete
  | some s =>
    let d := d.remove_video_stream s
    .ok { d with streams := d.streams.filter fun s => decide (s.ptr ≠ ptr) }

inductive Call
  | add_stream (params : KVS) (desc_id : Int)
  | freeStream (ptr : Ptr)
  deriving DecidableEq, Repr

def step (d : Director) : Call → Except Fault Director
  | .add_stream params desc_id => d.add_stream params desc_id
  | .freeStream ptr => d.freeStream ptr

/-! ## The property -/

/-- How many channels of the mixer are in use. -/
def employed_channels (m : CTX) : Nat :=
  (List.range MAX_CHANNELS).countP fun i => !(m.channels_ i).idle_

/-- The channels, the pins of the tee and the layouts belong to the live streams. -/
structure Accounted (d : Director) : Prop where
  count : employed_channels d.mixer = d.streams.length
  own : (d.streams.map Stream.chid).Nodup
  employed : ∀ s ∈ d.streams, d.mixer.Employed s.chid
  tee : ∀ s ∈ d.streams, ∃ pin, pin ≠ PUBLISHER_PIN ∧
    (⟨.video_tee_, pin, .sink_filter s.ptr, 0⟩ : MSQueue) ∈ d.links
  layout : ∀ i < MAX_CHANNELS, layout_of (d.mixer.channels_ i) = d.due i

/-- The parameters of a video stream, which `add_stream` accepts. -/
def makes_video (params : KVS) : Prop :=
  chk_params params ["client_ip", "client_port", "payload"] = none ∧
    param_i params "payload" = 100

/-- The layout comes to the channel `ch` and to no other: `desc.id` happens to be `ch`, or
no channel changes because each one concerned has that layout already. -/
def Lands (m : CTX) (layout : Layout) (ch : Nat) (desc_id : Int) : Prop :=
  desc_id = ch ∨ (layout_of (m.channels_ ch) = layout ∧
    (m.Employed desc_id → layout_of (m.channels_ desc_id.toNat) = layout))

/-- No stream is freed, at most nine are made, and the layout of each one lands. The next
channel has the number of the live streams. -/
def Spared (d : Director) : Call → Prop
  | .add_stream params desc_id => makes_video params → d.streams.length < PUBLISHER_PIN ∧
      ∀ layout, given_layout params = some layout →
        Lands d.mixer layout d.streams.length desc_id
  | .freeStream _ => False

/-! ## A layout -/

section

variable {m m' : CTX}

theorem set_layout_spec (m : CTX) (layout : Layout) (desc_id : Int) :
    ∃ m', set_layout m layout desc_id = .ok m' ∧ m'.zorder_ = m.zorder_ ∧
      (∀ i, (m'.channels_ i).idle_ = (m.channels_ i).idle_) ∧
      (m.Employed desc_id → layout_of (m'.channels_ desc_id.toNat) = layout) ∧
      ∀ i, (m.Employed desc_id → i ≠ desc_id.toNat) →
        layout_of (m'.channels_ i) = layout_of (m.channels_ i) := by
  unfold set_layout
  rcases director.set_channel_desc_cases m
      { id := desc_id, x := layout.x, y := layout.y, width := layout.width,
        height := layout.height, alpha := layout.alpha } with ⟨hset, hnot⟩ | ⟨hemp, hset⟩
  · rw [hset]
    exact ⟨m, rfl, rfl, fun _ => rfl, fun h => absurd h hnot, fun _ _ => rfl⟩
  · rw [hset]
    refine ⟨_, rfl, rfl, fun i => ?_, fun _ => ?_, fun i hi => ?_⟩
    · by_cases hi : i = desc_id.toNat
      · subst hi
        simp [director.placed]
      · rw [set_channel_ne _ _ hi]
    · simp [director.placed, layout_of]
    · rw [set_channel_ne _ _ (hi hemp)]

end

/-! ## The graph of the nine streams -/

section

variable {d d' : Director} {params : KVS} {desc_id : Int}

def stream_links (s : Stream) : Links :=
  [⟨.source_filter s.ptr, 0, .video_mixer_, s.chid.toNat⟩,
    ⟨.video_tee_, s.chid.toNat, .sink_filter s.ptr, 0⟩]

/-- The streams have the first channels and the first pins, in order. -/
structure Graph (d : Director) : Prop where
  ordered : Ordered d.mixer
  busy : ∀ i < MAX_CHANNELS, (d.mixer.channels_ i).idle_ = decide (d.streams.length ≤ i)
  chids : d.streams.map Stream.chid = (List.range d.streams.length).map Int.ofNat
  room : d.streams.length ≤ PUBLISHER_PIN
  links : d.links = start_links ++ d.streams.flatMap stream_links
  old : ∀ s ∈ d.streams, s.ptr < d.next

def Placed (d : Director) : Prop :=
  ∀ i < MAX_CHANNELS, layout_of (d.mixer.channels_ i) = d.due i

theorem Graph.chid (h : Graph d) {s : Stream} (hs : s ∈ d.streams) :
    ∃ i < d.streams.length, s.chid = (i : Int) := by
  have hmem : s.chid ∈ d.streams.map Stream.chid := List.mem_map_of_mem hs
  rw [h.chids] at hmem
  obtain ⟨i, hi, heq⟩ := List.mem_map.mp hmem
  exact ⟨i, List.mem_range.mp hi, heq.symm⟩

theorem Graph.mem_links (h : Graph d) {q : MSQueue} :
    q ∈ d.links ↔ q ∈ start_links ∨ ∃ s ∈ d.streams, q ∈ stream_links s := by
  rw [h.links, List.mem_append, List.mem_flatMap]

theorem Graph.employed (h : Graph d) {s : Stream} (hs : s ∈ d.streams) :
    d.mixer.Employed s.chid := by
  obtain ⟨i, hi, heq⟩ := h.chid hs
  have hroom := h.room
  have hmax : i < MAX_CHANNELS := by
    simp only [PUBLISHER_PIN, MAX_CHANNELS] at *
    omega
  refine ⟨by omega, by omega, ?_⟩
  rw [heq, Int.toNat_natCast, h.busy i hmax]
  exact decide_eq_false (by omega)

theorem countP_range_lt {n k : Nat} (hn : n ≤ k) :
    (List.range k).countP (fun i => decide (i < n)) = n := by
  induction k with
  | zero =>
    have : n = 0 := by omega
    subst this
    rfl
  | succ k ih =>
    rw [List.range_succ, List.countP_append, List.countP_singleton]
    by_cases hk : n ≤ k
    · have hlast : ¬ k < n := by omega
      simp [ih hk, hlast]
    · have hall : ∀ i ∈ List.range k, decide (i < n) = true := by
        intro i hi
        have := List.mem_range.mp hi
        exact decide_eq_true (by omega)
      rw [List.countP_eq_length.mpr hall, List.length_range]
      have hlast : k < n := by omega
      simp [hlast]
      omega

theorem Graph.count (h : Graph d) : employed_channels d.mixer = d.streams.length := by
  have hroom := h.room
  have hle : d.streams.length ≤ MAX_CHANNELS := by
    simp only [PUBLISHER_PIN, MAX_CHANNELS] at *
    omega
  unfold employed_channels
  rw [← countP_range_lt hle]
  apply List.countP_congr
  intro i hi
  rw [h.busy i (List.mem_range.mp hi)]
  simp

theorem Graph.accounted (h : Graph d) (hlayout : Placed d) : Accounted d where
  count := h.count
  own := by
    rw [h.chids]
    exact List.nodup_range.map Int.ofNat_injective
  employed _ := h.employed
  tee s hs := by
    obtain ⟨i, hi, heq⟩ := h.chid hs
    have hroom := h.room
    refine ⟨s.chid.toNat, by omega, h.mem_links.mpr (.inr ⟨s, hs, ?_⟩)⟩
    simp [stream_links]
  layout := hlayout

/-! ## A new stream -/

/-- The filters of the new stream have no queue yet. -/
theorem Graph.not_linked (h : Graph d) {q : MSQueue} (hq : q ∈ d.links) :
    q.f1 ≠ .source_filter d.next ∧ q.f2 ≠ .sink_filter d.next := by
  rcases h.mem_links.mp hq with hq | ⟨s, hs, hq⟩
  · simp only [start_links, List.mem_cons, List.not_mem_nil, or_false] at hq
    rcases hq with rfl | rfl <;> simp
  · have hne : s.ptr ≠ d.next := Nat.ne_of_lt (h.old s hs)
    simp only [stream_links, List.mem_cons, List.not_mem_nil, or_false] at hq
    rcases hq with rfl | rfl <;> simp [hne]

/-- The next input of the mixer is free. -/
theorem Graph.input_free (h : Graph d) : inputs d.links .video_mixer_ d.streams.length = none := by
  rw [inputs_none]
  intro q hq hf
  rcases h.mem_links.mp hq with hq | ⟨s, hs, hq⟩
  · simp only [start_links, List.mem_cons, List.not_mem_nil, or_false] at hq
    rcases hq with rfl | rfl <;> cases hf
  · obtain ⟨i, hi, heq⟩ := h.chid hs
    simp only [stream_links, List.mem_cons, List.not_mem_nil, or_false] at hq
    rcases hq with rfl | rfl
    · simp only [heq, Int.toNat_natCast]
      omega
    · cases hf

/-- So is the next output of the tee, except for the publisher's. -/
theorem Graph.output_free (h : Graph d) (hroom : d.streams.length < PUBLISHER_PIN) :
    outputs d.links .video_tee_ d.streams.length = none := by
  rw [outputs_none]
  intro q hq hf
  rcases h.mem_links.mp hq with hq | ⟨s, hs, hq⟩
  · simp only [start_links, List.mem_cons, List.not_mem_nil, or_false] at hq
    rcases hq with rfl | rfl
    · cases hf
    · exact Nat.ne_of_gt hroom
  · obtain ⟨i, hi, heq⟩ := h.chid hs
    simp only [stream_links, List.mem_cons, List.not_mem_nil, or_false] at hq
    rcases hq with rfl | rfl
    · cases hf
    · simp only [heq, Int.toNat_natCast]
      omega

/-- The queue from the new stream to the mixer. -/
theorem Graph.link_source (h : Graph d) :
    ms_filter_link d.links (.source_filter d.next) 0 .video_mixer_ d.streams.length =
      (0, d.links ++ [⟨.source_filter d.next, 0, .video_mixer_, d.streams.length⟩]) := by
  have hroom := h.room
  apply link_free
  · exact Nat.zero_lt_one
  · simp only [MSFilter.ninputs, PUBLISHER_PIN, MAX_CHANNELS] at *
    omega
  · rw [outputs_none]
    exact fun q hq hf => absurd hf (h.not_linked hq).1
  · exact h.input_free

theorem Graph.link_stream (h : Graph d) (hroom : d.streams.length < PUBLISHER_PIN) (id : Int) :
    link_stream d.links d.next d.streams.length =
      d.links ++ stream_links { ptr := d.next, id := id, chid := d.streams.length } := by
  unfold zonekey_director.link_stream
  rw [h.link_source]
  dsimp only
  rw [link_free]
  · simp [stream_links]
  · exact Nat.lt_of_lt_of_le hroom (by decide)
  · exact Nat.zero_lt_one
  · have hfree := outputs_none.mp (h.output_free hroom)
    rw [outputs_none]
    intro q hq hf
    rcases List.mem_append.mp hq with hq | hq
    · exact hfree q hq hf
    · rw [List.mem_singleton.mp hq] at hf
      cases hf
  · rw [inputs_none]
    intro q hq hf
    rcases List.mem_append.mp hq with hq | hq
    · exact absurd hf (h.not_linked hq).2
    · rw [List.mem_singleton.mp hq] at hf
      cases hf

/-- The tenth stream has no link to the tee, because the publisher has its pin. -/
theorem Graph.link_refused (h : Graph d) (hfull : d.streams.length = PUBLISHER_PIN)
    {q : MSQueue} (hq : q ∈ zonekey_director.link_stream d.links d.next d.streams.length) :
    q.f2 ≠ .sink_filter d.next := by
  unfold zonekey_director.link_stream at hq
  rw [h.link_source, hfull] at hq
  have htaken : outputs (d.links ++ [⟨.source_filter d.next, 0, .video_mixer_, PUBLISHER_PIN⟩])
      .video_tee_ PUBLISHER_PIN ≠ none := by
    intro hnone
    have hpub : (⟨.video_tee_, PUBLISHER_PIN, .video_publisher_, 0⟩ : MSQueue) ∈ d.links :=
      h.mem_links.mpr (.inl (by simp [start_links]))
    exact outputs_none.mp hnone _ (List.mem_append_left _ hpub) rfl rfl
  simp only [ms_filter_link, htaken, ne_eq, not_false_eq_true, if_true, ite_self] at hq
  rcases List.mem_append.mp hq with hq | hq
  · exact (h.not_linked hq).2
  · rw [List.mem_singleton.mp hq]
    simp

/-- The channel of the new stream has the number of the live streams. -/
theorem Graph.get_channel (h : Graph d) :
    ∃ m', d.mixer.get_channel = .ok ((d.streams.length : Int), m') ∧ Ordered m' ∧
      (∀ i < MAX_CHANNELS, (m'.channels_ i).idle_ = decide (d.streams.length + 1 ≤ i)) ∧
      ∀ i, layout_of (m'.channels_ i) = layout_of (d.mixer.channels_ i) := by
  have hroom := h.room
  have hmax : d.streams.length < MAX_CHANNELS := by
    simp only [PUBLISHER_PIN, MAX_CHANNELS] at *
    omega
  obtain ⟨c, m', hget, hordered⟩ := director.get_channel_ordered h.ordered
  rcases get_channel_cases hget with ⟨-, -, hall⟩ | ⟨i, z, rfl, hi, hidle, hbefore, -, rfl⟩
  · have := hall _ hmax
    rw [h.busy _ hmax] at this
    simp at this
  · rw [h.busy i hi, decide_eq_true_eq] at hidle
    have hle : i ≤ d.streams.length := by
      by_contra hlt
      have := hbefore _ (Nat.lt_of_not_le hlt)
      rw [h.busy _ hmax] at this
      simp at this
    have hlast : i = d.streams.length := Nat.le_antisymm hle hidle
    subst hlast
    refine ⟨_, hget, hordered, fun j hj => ?_, fun j => ?_⟩
    · by_cases heq : j = d.streams.length
      · subst heq
        simp [CTX.set_channel, InputSource.employ]
      · have hne := set_channel_ne d.mixer (d.mixer.channels_ d.streams.length).employ heq
        simp only [hne, h.busy j hj]
        exact decide_eq_decide.mpr (by omega)
    · by_cases heq : j = d.streams.length
      · subst heq
        simp [CTX.set_channel, InputSource.employ, layout_of]
      · have hne := set_channel_ne d.mixer (d.mixer.channels_ d.streams.length).employ heq
        simp only [hne]

/-- The channels in use, with the one of the new stream. -/
theorem Graph.employed_grown (h : Graph d) {m : CTX}
    (hbusy : ∀ i < MAX_CHANNELS, (m.channels_ i).idle_ = decide (d.streams.length + 1 ≤ i))
    (c : Int) : m.Employed c ↔ d.mixer.Employed c ∨ c = d.streams.length := by
  have hroom := h.room
  have hmax : d.streams.length < MAX_CHANNELS := by
    simp only [PUBLISHER_PIN, MAX_CHANNELS] at *
    omega
  unfold CTX.Employed
  by_cases hrange : 0 ≤ c ∧ c < MAX_CHANNELS
  · rw [hbusy _ (by omega), h.busy _ (by omega), decide_eq_false_iff_not, decide_eq_false_iff_not]
    omega
  · omega

/-- Where the layout of the new stream comes to. -/
theorem Graph.lands_iff (h : Graph d) (hplaced : Placed d) {m m' : CTX} {layout : Layout}
    (hbusy : ∀ i < MAX_CHANNELS, (m.channels_ i).idle_ = decide (d.streams.length + 1 ≤ i))
    (hsame : ∀ i, layout_of (m.channels_ i) = layout_of (d.mixer.channels_ i))
    (hset : m.Employed desc_id → layout_of (m'.channels_ desc_id.toNat) = layout)
    (hrest : ∀ i, (m.Employed desc_id → i ≠ desc_id.toNat) →
      layout_of (m'.channels_ i) = layout_of (m.channels_ i)) :
    (∀ i < MAX_CHANNELS, layout_of (m'.channels_ i) =
      Function.update d.due d.streams.length layout i) ↔
      Lands d.mixer layout d.streams.length desc_id := by
  have hroom := h.room
  have hmax : d.streams.length < MAX_CHANNELS := by
    simp only [PUBLISHER_PIN, MAX_CHANNELS] at *
    omega
  have hgrown := h.employed_grown hbusy
  have hnew : m.Employed d.streams.length := (hgrown _).mpr (.inr rfl)
  constructor
  · intro hall
    by_cases heq : desc_id = d.streams.length
    · exact .inl heq
    · right
      have hown := hall _ hmax
      rw [Function.update_self, hrest _ (by intro hemp; have := hemp.1; omega), hsame] at hown
      refine ⟨hown, fun hemp => ?_⟩
      have hid := hall desc_id.toNat (by have := hemp.2.1; omega)
      have hne : desc_id.toNat ≠ d.streams.length := by
        have := hemp.1
        omega
      rw [Function.update_of_ne hne, hset ((hgrown _).mpr (.inl hemp)),
        ← hplaced _ (by have := hemp.2.1; omega)] at hid
      exact hid.symm
  · rintro (heq | ⟨hown, hother⟩) i hi
    · subst heq
      rw [Int.toNat_natCast] at hset hrest
      by_cases hin : i = d.streams.length
      · subst hin
        rw [Function.update_self, hset hnew]
      · rw [Function.update_of_ne hin, hrest i (fun _ => hin), hsame, hplaced i hi]
    · have hsame' : layout_of (m'.channels_ i) = layout_of (d.mixer.channels_ i) := by
        by_cases hid : m.Employed desc_id ∧ i = desc_id.toNat
        · obtain ⟨hemp, rfl⟩ := hid
          rw [hset hemp]
          by_cases heq : desc_id = d.streams.length
          · rw [heq, Int.toNat_natCast, hown]
          · exact (hother (((hgrown _).mp hemp).resolve_right heq)).symm
        · rw [hrest i (fun hemp hin => hid ⟨hemp, hin⟩), hsame]
      rw [hsame']
      by_cases hin : i = d.streams.length
      · rw [hin, Function.update_self, hown]
      · rw [Function.update_of_ne hin, hplaced i hi]

/-- What the creation of a video stream does. -/
structure Made (d d' : Director) (params : KVS) (desc_id : Int) : Prop where
  streams : ∃ id, d'.streams = d.streams ++ [{ ptr := d.next, id, chid := d.streams.length }]
  links : d'.links = zonekey_director.link_stream d.links d.next d.streams.length
  next : d'.next = d.next + 1
  ordered : Ordered d'.mixer
  busy : ∀ i < MAX_CHANNELS,
    (d'.mixer.channels_ i).idle_ = decide (d.streams.length + 1 ≤ i)
  placed : Placed d → (Placed d' ↔ ∀ layout, given_layout params = some layout →
    Lands d.mixer layout d.streams.length desc_id)

theorem payload_given (h : chk_params params ["client_ip", "client_port", "payload"] = none) :
    chk_params params ["payload"] = none := by
  simp only [chk_params] at h ⊢
  split at h
  · split at h
    · exact h
    · cases h
  · cases h

theorem Graph.insert_video_stream (h : Graph d) (id : Int) :
    ∃ m', { d with stream_id_ := id, next := d.next + 1 }.insert_video_stream d.next =
        .ok (some (d.streams.length : Int), { d with
          stream_id_ := id
          next := d.next + 1
          mixer := m'
          links := zonekey_director.link_stream d.links d.next d.streams.length }) ∧
      Ordered m' ∧
      (∀ i < MAX_CHANNELS, (m'.channels_ i).idle_ = decide (d.streams.length + 1 ≤ i)) ∧
      ∀ i, layout_of (m'.channels_ i) = layout_of (d.mixer.channels_ i) := by
  obtain ⟨m', hget, hordered, hbusy, hsame⟩ := h.get_channel
  refine ⟨m', ?_, hordered, hbusy, hsame⟩
  have hnonneg : ¬ (d.streams.length : Int) < 0 := by omega
  simp only [Director.insert_video_stream, hget, if_neg hnonneg, Int.toNat_natCast]

theorem Graph.makes (h : Graph d) (hv : makes_video params) (desc_id : Int) :
    ∃ d', d.add_stream params desc_id = .ok d' ∧ Made d d' params desc_id := by
  obtain ⟨hgiven, hpayload⟩ := hv
  have hgiven' := payload_given hgiven
  obtain ⟨m, hins, hordered, hbusy, hsame⟩ := h.insert_video_stream
    (if 0x7ffffffe < d.stream_id_ + 1 then 0 else d.stream_id_ + 1)
  simp only [Director.add_stream, hgiven, Director.createStream, hgiven', hpayload, hins, ne_eq,
    not_true_eq_false, if_false, if_true]
  cases hl : given_layout params with
  | none =>
    refine ⟨_, rfl, ⟨_, rfl⟩, rfl, rfl, hordered, hbusy, fun hplaced => ?_⟩
    constructor
    · intro _ layout hlayout
      rw [hl] at hlayout
      cases hlayout
    · intro _ i hi
      simp only [hsame, hplaced i hi]
  | some layout =>
    obtain ⟨m', hset, hz, hidle, hat, hrest⟩ := set_layout_spec m layout desc_id
    simp only [hset, Except.map]
    refine ⟨_, rfl, ⟨_, rfl⟩, rfl, rfl, director.ordered_congr hordered hz hidle,
      fun i hi => (hidle i).trans (hbusy i hi), fun hplaced => ?_⟩
    have hiff := h.lands_iff hplaced hbusy hsame hat hrest
    constructor
    · intro hp layout' hlayout'
      rw [hl] at hlayout'
      cases hlayout'
      exact hiff.mp hp
    · intro hlands
      exact hiff.mpr (hlands layout hl)

theorem not_made (d : Director) (hv : ¬ makes_video params) (desc_id : Int) :
    ∃ id, d.add_stream params desc_id = .ok { d with stream_id_ := id } := by
  unfold Director.add_stream
  by_cases hgiven : chk_params params ["client_ip", "client_port", "payload"] = none
  · have hpayload : param_i params "payload" ≠ 100 := fun heq => hv ⟨hgiven, heq⟩
    refine ⟨if 0x7ffffffe < d.stream_id_ + 1 then 0 else d.stream_id_ + 1, ?_⟩
    simp [hgiven, Director.createStream, payload_given hgiven, hpayload]
  · exact ⟨d.stream_id_, by simp [hgiven]⟩

theorem Graph.made (h : Graph d) (hroom : d.streams.length < PUBLISHER_PIN)
    (hmade : Made d d' params desc_id) : Graph d' := by
  obtain ⟨id, hstreams⟩ := hmade.streams
  have hlen : d'.streams.length = d.streams.length + 1 := by rw [hstreams, List.length_append]; rfl
  refine ⟨hmade.ordered, ?_, ?_, ?_, ?_, ?_⟩
  · intro i hi
    rw [hmade.busy i hi, hlen]
  · rw [hlen, hstreams, List.map_append, h.chids, List.range_succ, List.map_append]
    rfl
  · rw [hlen]
    exact hroom
  · rw [hmade.links, h.link_stream hroom id, h.links, hstreams, List.flatMap_append,
      List.append_assoc]
    simp
  · intro s hs
    rw [hstreams] at hs
    rw [hmade.next]
    rcases List.mem_append.mp hs with hs | hs
    · exact Nat.lt_succ_of_lt (h.old s hs)
    · rw [List.mem_singleton.mp hs]
      exact Nat.lt_succ_self _

/-- A tenth stream gets nothing back from the tee. -/
theorem Graph.not_accounted (h : Graph d) (hfull : d.streams.length = PUBLISHER_PIN)
    (hmade : Made d d' params desc_id) : ¬ Accounted d' := by
  intro hacc
  obtain ⟨id, hstreams⟩ := hmade.streams
  have hmem : { ptr := d.next, id := id, chid := d.streams.length } ∈ d'.streams := by
    rw [hstreams]
    exact List.mem_append_right _ List.mem_cons_self
  obtain ⟨pin, -, hq⟩ := hacc.tee _ hmem
  rw [hmade.links] at hq
  exact h.link_refused hfull hq rfl

/-! ## The removal of a stream -/

/-- The removed stream was employed, and its channel still is. -/
theorem Graph.freed (h : Graph d) {ptr : Ptr} (hstep : d.freeStream ptr = .ok d') :
    employed_channels d'.mixer = d.streams.length ∧ d'.streams.length < d.streams.length := by
  unfold Director.freeStream at hstep
  cases hfind : d.streams.find? fun s => s.ptr = ptr with
  | none =>
    rw [hfind] at hstep
    cases hstep
  | some s =>
    rw [hfind] at hstep
    cases hstep
    refine ⟨h.count, ?_⟩
    have hs : s.ptr = ptr := by simpa using List.find?_some hfind
    exact List.length_filter_lt_length_iff_exists.mpr
      ⟨s, List.mem_of_find?_eq_some hfind, by simp [hs]⟩

/-! ## The calls in order -/

structure Inv (d : Director) : Prop where
  graph : Graph d
  placed : Placed d

theorem new_inv (want_alpha : Nat → Int) : Inv (Director.new want_alpha) where
  graph := by
    refine ⟨⟨[], new_orders want_alpha⟩, fun i _ => ?_, rfl, Nat.zero_le _, rfl, ?_⟩
    · simp [Director.new, CTX.new, InputSource.new]
    · simp [Director.new]
  placed i _ := rfl

theorem spared_keeps {call : Call} (h : Inv d) (hc : Spared d call) :
    ∃ d', step d call = .ok d' ∧ Inv d' := by
  cases call with
  | freeStream ptr => exact hc.elim
  | add_stream params desc_id =>
    by_cases hv : makes_video params
    · obtain ⟨hroom, hlands⟩ := hc hv
      obtain ⟨d', hadd, hmade⟩ := h.graph.makes hv desc_id
      exact ⟨d', hadd, h.graph.made hroom hmade, (hmade.placed h.placed).mpr hlands⟩
    · obtain ⟨id, hadd⟩ := not_made d hv desc_id
      obtain ⟨hgraph, hplaced⟩ := h
      obtain ⟨hordered, hbusy, hchids, hroom, hlinks, hold⟩ := hgraph
      exact ⟨_, hadd, ⟨hordered, hbusy, hchids, hroom, hlinks, hold⟩, hplaced⟩

theorem accounted_was_spared {call : Call} (h : Inv d) (hstep : step d call = .ok d')
    (hacc : Accounted d') : Spared d call := by
  cases call with
  | freeStream ptr =>
    obtain ⟨hcount, hlen⟩ := h.graph.freed hstep
    have := hacc.count
    omega
  | add_stream params desc_id =>
    intro hv
    obtain ⟨d'', hadd, hmade⟩ := h.graph.makes hv desc_id
    have heq : d'' = d' := by
      rw [show step d (.add_stream params desc_id) = .ok d'' from hadd] at hstep
      cases hstep
      rfl
    subst heq
    refine ⟨?_, (hmade.placed h.placed).mp hacc.layout⟩
    by_contra hfull
    have hroom := h.graph.room
    exact h.graph.not_accounted (by omega) hmade hacc

end

/-! ## The law -/

/-- The channels, pins and layouts are the live streams' exactly while no stream is freed, at
most nine are made, and the number that `desc.id` happens to hold is the new channel's. -/
theorem the_channels_are_the_streams_until_one_is_freed (want_alpha : Nat → Int)
    (calls : List Call) :
    Along step Accounted (Director.new want_alpha) calls ↔
      Meets step Spared (Director.new want_alpha) calls :=
  along_iff_meets (I := Inv) (fun _ h => h.graph.accounted h.placed)
    (fun _ _ h => spared_keeps h) (fun _ _ _ h hstep hacc => accounted_was_spared h hstep hacc)
    calls (new_inv want_alpha)

/-- A video stream at a fixed address, with no layout. -/
def video_params : KVS := [("client_ip", "10.0.0.1"), ("client_port", "5004"), ("payload", "100")]

/-- The channel of a stream that is gone stays employed. -/
theorem a_freed_stream_keeps_its_channel :
    (run step (Director.new fun _ => 0) [.add_stream video_params 0, .freeStream 0]).map
        (fun d => (employed_channels d.mixer, d.streams)) = .ok (1, []) ∧
      ¬ ∀ (want_alpha : Nat → Int) (calls : List Call),
        Along step Accounted (Director.new want_alpha) calls := by
  have hrun : (run step (Director.new fun _ => 0) [.add_stream video_params 0, .freeStream 0]).map
      (fun d => (employed_channels d.mixer, d.streams)) = .ok (1, []) := by decide +kernel
  refine ⟨hrun, fun hall => ?_⟩
  have halong := hall (fun _ => 0) [.add_stream video_params 0, .freeStream 0]
  obtain ⟨d, hd⟩ := along_ends halong
  have hcount := (along_end halong hd).count
  rw [hd] at hrun
  simp only [Except.map, Except.ok.injEq, Prod.mk.injEq] at hrun
  rw [hrun.1, hrun.2] at hcount
  cases hcount

end zonekey_mcu.zonekey_director
