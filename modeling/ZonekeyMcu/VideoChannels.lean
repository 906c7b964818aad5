-- The channels of the video streams, and where their pictures go. The mixer gives
-- the first idle channel, and a stream that is added with no place of its own gets
-- the place of its channel in a grid of three by three.
import ZonekeyMcu.ConferenceRuns

open runs memory zonekey_mcu.members zonekey_mcu.options zonekey_mcu.director
open zonekey_mcu.filter_graph
open zonekey_mcu.video_mixer (CTX ChannelDesc EncoderSetting Ordered)

/-! ## The grid -/

namespace zonekey_mcu.director

def inside (canvas : EncoderSetting) (desc : ChannelDesc) : Prop :=
  0 ≤ desc.x ∧ 0 ≤ desc.y ∧ desc.x + desc.width ≤ canvas.width ∧
    desc.y + desc.height ≤ canvas.height

/-- Two rectangles with a line between them. -/
def disjoint (a b : ChannelDesc) : Prop :=
  a.x + a.width ≤ b.x ∨ b.x + b.width ≤ a.x ∨ a.y + a.height ≤ b.y ∨ b.y + b.height ≤ a.y

/-- A third of the canvas, three times, is not more than the canvas. -/
theorem three_thirds {a : Int} (ha : 0 ≤ a) {i : Nat} (hi : i < 3) :
    0 ≤ (i : Int) * a.tdiv 3 ∧ (i : Int) * a.tdiv 3 + a.tdiv 3 ≤ a := by
  rw [Int.tdiv_eq_ediv_of_nonneg ha]
  have hcell : 0 ≤ a / 3 ∧ 3 * (a / 3) ≤ a := by omega
  have hcases : i = 0 ∨ i = 1 ∨ i = 2 := by omega
  rcases hcases with rfl | rfl | rfl <;> omega

/-- Cells of two different columns, or of two different rows, do not meet. -/
theorem thirds_apart {a : Int} (ha : 0 ≤ a) {i j : Nat} (hij : i < j) :
    (i : Int) * a.tdiv 3 + a.tdiv 3 ≤ (j : Int) * a.tdiv 3 := by
  have hcell : 0 ≤ a.tdiv 3 := Int.tdiv_nonneg ha (by decide)
  have hle : ((i : Int) + 1) * a.tdiv 3 ≤ (j : Int) * a.tdiv 3 :=
    Int.mul_le_mul_of_nonneg_right (by omega) hcell
  rw [Int.add_mul, Int.one_mul] at hle
  exact hle

theorem default_layout_inside {canvas : EncoderSetting} (hw : 0 ≤ canvas.width)
    (hh : 0 ≤ canvas.height) {cid : Nat} (hcid : cid < MAX_STREAMS) :
    inside canvas (default_layout canvas cid) := by
  have h9 : MAX_STREAMS = 9 := rfl
  obtain ⟨hx, hright⟩ := three_thirds hw (i := cid % 3) (by omega)
  obtain ⟨hy, hbottom⟩ := three_thirds hh (i := cid / 3) (by omega)
  exact ⟨hx, hy, hright, hbottom⟩

theorem default_layout_disjoint {canvas : EncoderSetting} (hw : 0 ≤ canvas.width)
    (hh : 0 ≤ canvas.height) {cid cid' : Nat} (hne : cid ≠ cid') :
    disjoint (default_layout canvas cid) (default_layout canvas cid') := by
  have hcell : cid % 3 < cid' % 3 ∨ cid' % 3 < cid % 3 ∨ cid / 3 < cid' / 3 ∨
      cid' / 3 < cid / 3 := by omega
  rcases hcell with hlt | hlt | hlt | hlt
  · exact Or.inl (thirds_apart hw hlt)
  · exact Or.inr (Or.inl (thirds_apart hw hlt))
  · exact Or.inr (Or.inr (Or.inl (thirds_apart hh hlt)))
  · exact Or.inr (Or.inr (Or.inr (thirds_apart hh hlt)))

/-! ## Streams with the default place -/

/-- The video streams among `defaults` have the place of their channel in the grid. -/
def Gridded (m : CTX) (canvas : EncoderSetting) (ws : List Wire) (defaults : List Ptr) : Prop :=
  m.get_encoder = canvas ∧ ∀ w ∈ ws, w.is_video = true → w.ptr ∈ defaults →
    ∃ s, m.channels_ w.cid_ = placed s (default_layout canvas w.cid_)

variable {f : Filters} {canvas : EncoderSetting} {ws : List Wire} {defaults : List Ptr}

/-- The streams that are left keep their channels. -/
theorem Wired.del_stream_gridded {before after : List Wire} {s : Stream}
    (h : Wired f (before ++ wire s :: after)) (hp : ∀ w' ∈ before ++ after, w'.ptr ≠ s.ptr)
    (hg : Gridded f.video_mixer canvas (before ++ wire s :: after) defaults) {rc : Int}
    {f' : Filters} (hdel : f.del_stream s = .ok (rc, f')) :
    Gridded f'.video_mixer canvas (before ++ after) defaults := by
  have hrest : ∀ w ∈ before ++ after, w ∈ before ++ wire s :: after := fun w hw => mem_middle hw
  rcases h.payloads (wire s) (by simp) with hv | ha
  · rw [del_stream_video hv] at hdel
    rcases h.del_video_stream hp hv with ⟨herr, -⟩ | ⟨zorder_, g, hok, -, -, -, hm, -⟩
    · rw [herr] at hdel
      cases hdel
    · rw [hok] at hdel
      cases hdel
      rw [hm]
      refine ⟨hg.1, fun w hw hvideo hdefault => ?_⟩
      have hne : w.cid_ ≠ s.cid_ := by
        intro heq
        have hnd := h.channels
        simp only [List.filter_append, List.filter_cons, hv, if_true, List.map_append,
          List.map_cons, List.nodup_middle, List.nodup_cons] at hnd
        apply hnd.1
        rw [← List.map_append, ← List.filter_append]
        exact List.mem_map.mpr ⟨w, List.mem_filter.mpr ⟨hw, hvideo⟩, heq⟩
      obtain ⟨src, hsrc⟩ := hg.2 w (hrest w hw) hvideo hdefault
      refine ⟨src, ?_⟩
      rw [← hsrc]
      exact video_mixer.set_channel_ne _ _ hne
  · rw [del_stream_audio ha] at hdel
    obtain ⟨g, hok, -, hm, -⟩ := h.del_audio_stream hp ha
    rw [hok] at hdel
    cases hdel
    rw [hm]
    exact ⟨hg.1, fun w hw hvideo hdefault => hg.2 w (hrest w hw) hvideo hdefault⟩

/-- A new stream gets the default place, unless the command gives it one. -/
theorem Wired.add_stream_gridded (h : Wired f ws) {s s' : Stream} {params : KVS}
    (hp : ∀ w' ∈ ws, w'.ptr ≠ s.ptr)
    (hpay : (wire s).is_video = true ∨ (wire s).is_audio = true)
    (hg : Gridded f.video_mixer canvas ws defaults)
    (hdefault : s.ptr ∈ defaults → chk_params params ["dx", "dy", "dwidth", "dheight"] ≠ none)
    {rc : Int} {f' : Filters} (hadd : f.add_stream s params = .ok (rc, s', f')) (hrc : 0 ≤ rc) :
    Gridded f'.video_mixer canvas (ws ++ [wire s']) defaults := by
  rcases hpay with hv | ha
  · rw [add_stream_video hv] at hadd
    rcases h.add_video_stream hp hv params with ⟨-, hno⟩ | ⟨herr, -⟩ |
      ⟨-, cid, zorder_, g, hcid, hidle, -, hok, hm, -, -⟩
    · rw [hno] at hadd
      cases hadd
      exact absurd hrc (by decide)
    · rw [herr] at hadd
      cases hadd
    · rw [hok] at hadd
      cases hadd
      rw [hm]
      refine ⟨hg.1, fun w hw hvideo hmem => ?_⟩
      rcases List.mem_append.mp hw with hw | hw
      · have hne : w.cid_ ≠ cid := by
          intro heq
          exact h.idle_unused hcid hidle
            (List.mem_map.mpr ⟨w, List.mem_filter.mpr ⟨hw, hvideo⟩, heq⟩)
        obtain ⟨src, hsrc⟩ := hg.2 w hw hvideo hmem
        refine ⟨src, ?_⟩
        rw [← hsrc]
        exact video_mixer.set_channel_ne _ _ hne
      · rw [List.mem_singleton.mp hw] at hmem ⊢
        refine ⟨(f.video_mixer.channels_ cid).employ, ?_⟩
        have hlayout : layout f.video_mixer.get_encoder cid params = default_layout canvas cid := by
          unfold layout
          rw [if_neg (hdefault hmem), hg.1]
        rw [wire_cid, ← hlayout]
        exact video_mixer.set_channel_self _ _ _
  · rw [add_stream_audio ha] at hadd
    rcases h.add_audio_stream hp ha with ⟨-, hno⟩ | ⟨-, cid, g, -, -, hok, -, hm, -⟩
    · rw [hno] at hadd
      cases hadd
      exact absurd hrc (by decide)
    · rw [hok] at hadd
      cases hadd
      rw [hm]
      refine ⟨hg.1, fun w hw hvideo hmem => ?_⟩
      rcases List.mem_append.mp hw with hw | hw
      · exact hg.2 w hw hvideo hmem
      · rw [List.mem_singleton.mp hw] at hvideo
        have hv : (wire s).is_video = true := hvideo
        rw [video_not_audio hv] at ha
        cases ha

end zonekey_mcu.director

namespace zonekey_mcu.conference

variable {c : Conference}

/-! ## Runs that remember which streams got the default place -/

/-- A conference, and the pointers of the live streams that were added with no place
of their own. -/
structure Tracked where
  cf : Conference
  defaults : List Ptr

/-- The command adds a stream and does not say where its picture goes. -/
def gives_no_place : Call → Bool
  | .addStream _ params => chk_params params ["dx", "dy", "dwidth", "dheight"] ≠ none
  | .addStreamWithPublisher _ params => chk_params params ["dx", "dy", "dwidth", "dheight"] ≠ none
  | _ => false

/-- The stream that a call adds has the next pointer of the memory. -/
def track (t : Tracked) (call : Call) : Except Fault Tracked := do
  let cf ← step t.cf call
  let defaults := if gives_no_place call then t.cf.mem.next :: t.defaults else t.defaults
  return { cf, defaults := defaults.filter fun p => p ∈ cf.streams_.map Stream.ptr }

/-- A new director conference with a canvas. -/
def Tracked.new (env : Env) (want_alpha : Nat → Int) (id : Int) (canvas : EncoderSetting) :
    Tracked where
  cf :=
    let c := Conference.new .CT_DIRECTOR env want_alpha id
    c.with_video_mixer (c.filters.video_mixer.set_encoder canvas)
  defaults := []

/-- The invariant of a tracked run. -/
structure Tracking (canvas : EncoderSetting) (t : Tracked) : Prop where
  orderly : Orderly t.cf
  gridded : Gridded t.cf.filters.video_mixer canvas (t.cf.streams_.map wire) t.defaults
  live : ∀ p ∈ t.defaults, p ∈ t.cf.streams_.map Stream.ptr

theorem new_tracking (env : Env) (want_alpha : Nat → Int) (id : Int) (canvas : EncoderSetting) :
    Tracking canvas (Tracked.new env want_alpha id canvas) := by
  obtain ⟨hsound, ho⟩ := new_orderly .CT_DIRECTOR env want_alpha id
  refine ⟨⟨hsound.edit fun _ => rfl, ordered_congr ho rfl fun _ => rfl⟩, ⟨rfl, ?_⟩, ?_⟩
  · exact fun w hw => absurd hw List.not_mem_nil
  · exact fun p hp => absurd hp List.not_mem_nil

/-! ## Each step keeps the grid -/

section

variable {canvas : EncoderSetting} {defaults : List Ptr}

theorem Sound.change_gridded {c' : Conference} (h : Sound c) (hc : Change c c')
    (hg : Gridded c.filters.video_mixer canvas (c.streams_.map wire) defaults) :
    Gridded c'.filters.video_mixer canvas (c'.streams_.map wire) defaults := by
  cases hc with
  | marked => exact hg
  | lost => exact hg
  | source_gone => exact hg
  | sink_gone => simpa [Function.comp_def] using hg
  | stream_gone hs hf =>
    have hw := h.wired
    have hne := other_streams h.owned.accounts hs
    rw [hs, List.map_append, List.map_cons] at hw hg
    rw [List.map_append] at hne ⊢
    exact hw.del_stream_gridded hne hg hf
  | source_turn => exact hg
  | sink_turn => exact hg
  | stream_turn env hs => simpa [hs] using hg

theorem Sound.changes_gridded {c' : Conference} (h : Sound c) (hc : Changes c c')
    (hg : Gridded c.filters.video_mixer canvas (c.streams_.map wire) defaults) :
    Gridded c'.filters.video_mixer canvas (c'.streams_.map wire) defaults := by
  induction hc with
  | refl => exact hg
  | tail hrest hstep ih => exact (h.changes hrest).change_gridded hstep ih

/-- An effect keeps the grid. `defaults` may have the pointer of the new stream only
when the call gives it no place. -/
theorem Sound.effect_gridded {call : Call} {c' : Conference} (h : Sound c)
    (he : Effect c call c') (hcall : is_member_call call = true)
    (hnew : c.mem.next ∈ defaults → gives_no_place call = true)
    (hg : Gridded c.filters.video_mixer canvas (c.streams_.map wire) defaults) :
    Gridded c'.filters.video_mixer canvas (c'.streams_.map wire) defaults := by
  cases he with
  | changes hc => exact h.changes_gridded hc hg
  | refused env params hc => exact h.counted.changes_gridded hc hg
  | addSource => exact hg
  | addSink env params hchk hpay hkind ht =>
    rename_i payload target
    obtain ⟨-, -, -, hwire, -⟩ := subscribe_frame c target c.mem.next
    obtain ⟨graphics_, streams_, heq⟩ := subscribe_same c target c.mem.next
    rw [← hwire] at hg
    unfold Conference.sink_added Conference.adding
    change Gridded (c.subscribe target c.mem.next).filters.video_mixer canvas
      ((c.subscribe target c.mem.next).streams_.map wire) defaults
    rw [heq] at hg ⊢
    exact hg
  | addStream env sink publisher params hkind htype hchk hpay hadd hrc =>
    unfold Conference.stream_added
    rw [List.map_append]
    refine h.wired.add_stream_gridded h.owned.fresh_wire (stream_wire_kind hpay) hg
      (fun hm => ?_) hadd hrc
    have hplace := hnew hm
    cases call with
    | addStream env' params' =>
      obtain ⟨rfl, rfl, -⟩ := hkind
      exact of_decide_eq_true hplace
    | addStreamWithPublisher env' params' =>
      obtain ⟨rfl, rfl, -⟩ := hkind
      exact of_decide_eq_true hplace
    | _ => exact hkind.elim
  | edit htype ops setting hops hm =>
    cases call with
    | setParams params => cases hcall
    | vs_exchange_position id1 id2 => cases hcall
    | _ => exact hops.elim

/-- A new pointer among the defaults changes nothing for the streams that live. -/
theorem Owned.gridded_cons (h : Owned c) {m : CTX}
    (hg : Gridded m canvas (c.streams_.map wire) defaults) :
    Gridded m canvas (c.streams_.map wire) (c.mem.next :: defaults) := by
  refine ⟨hg.1, fun w hw hv hm => ?_⟩
  rcases List.mem_cons.mp hm with hptr | hm
  · exact absurd hptr (h.fresh_wire w hw)
  · exact hg.2 w hw hv hm

theorem Tracking.step {t t' : Tracked} {call : Call} (h : Tracking canvas t)
    (hcall : is_member_call call = true) (hs : track t call = .ok t') : Tracking canvas t' := by
  unfold track at hs
  cases hstep : conference.step t.cf call with
  | error e => simp [hstep] at hs
  | ok c' =>
    simp only [hstep, ok_bind, pure_eq_ok, Except.ok.injEq] at hs
    obtain ⟨he, -⟩ := h.orderly.sound.step hstep
    have hfresh : t.cf.mem.next ∉ t.defaults := by
      intro hm
      obtain ⟨s, hs, hptr⟩ := List.mem_map.mp (h.live _ hm)
      exact h.orderly.sound.owned.fresh_wire (wire s) (List.mem_map_of_mem hs) hptr
    rw [← hs]
    refine ⟨h.orderly.step (member_call_lossless hcall _) hstep, ?_, fun p hp => ?_⟩
    · cases hplace : gives_no_place call with
      | true =>
        have hg := h.orderly.sound.effect_gridded he hcall (fun _ => hplace)
          (h.orderly.sound.owned.gridded_cons h.gridded)
        exact ⟨hg.1, fun w hw hv hm => hg.2 w hw hv (List.mem_filter.mp hm).1⟩
      | false =>
        have hg := h.orderly.sound.effect_gridded he hcall (fun hm => absurd hm hfresh) h.gridded
        exact ⟨hg.1, fun w hw hv hm => hg.2 w hw hv (List.mem_filter.mp hm).1⟩
    · exact of_decide_eq_true (List.mem_filter.mp hp).2

end

/-! ## The law -/

def Conference.video_streams (c : Conference) : List Stream :=
  c.streams_.filter fun s => s.payload_type = 100

structure VideoChannels (t : Tracked) (canvas : EncoderSetting) : Prop where
  distinct : (t.cf.video_streams.map Stream.channel_id).Nodup
  range : ∀ s ∈ t.cf.video_streams, s.channel_id < MAX_STREAMS
  counter : t.cf.filters.video_stream_cnt_ = t.cf.video_streams.length
  -- The outputs of the tee: one for the publisher, and one for each stream with a sink.
  publisher : outputs t.cf.filters.links .video_tee_ MAX_STREAMS =
    some ⟨.video_tee_, MAX_STREAMS, .video_publisher_, 0⟩
  tee : ∀ s ∈ t.cf.video_streams, s.support_sink = true →
    outputs t.cf.filters.links .video_tee_ s.channel_id =
      some ⟨.video_tee_, s.channel_id, .sink_filter s.ptr, 0⟩
  free_pin : t.cf.video_streams.length < MAX_STREAMS → ∃ cid f',
    t.cf.filters.find_video_free_pin = .ok (cid, f') ∧ cid < MAX_STREAMS ∧
      ∀ s ∈ t.cf.video_streams, s.channel_id ≠ cid
  -- The pictures with the default place.
  inside : ∀ s ∈ t.cf.video_streams, s.ptr ∈ t.defaults → ∃ desc,
    t.cf.filters.video_mixer.get_channel_desc s.channel_id = some desc ∧ inside canvas desc
  disjoint : ∀ s ∈ t.cf.video_streams, ∀ s' ∈ t.cf.video_streams, s.ptr ∈ t.defaults →
    s'.ptr ∈ t.defaults → s.ptr ≠ s'.ptr → ∀ desc desc',
    t.cf.filters.video_mixer.get_channel_desc s.channel_id = some desc →
    t.cf.filters.video_mixer.get_channel_desc s'.channel_id = some desc' → disjoint desc desc'

theorem mem_video_streams {s : Stream} (hs : s ∈ c.video_streams) :
    s ∈ c.streams_ ∧ wire s ∈ c.streams_.map wire ∧ (wire s).is_video = true := by
  obtain ⟨hm, hv⟩ := List.mem_filter.mp hs
  exact ⟨hm, List.mem_map_of_mem hm, hv⟩

theorem video_streams_wire (c : Conference) :
    c.video_streams.map wire = (c.streams_.map wire).filter Wire.is_video := by
  unfold Conference.video_streams
  rw [List.filter_map]
  rfl

theorem Sound.video_distinct (h : Sound c) : (c.video_streams.map Stream.channel_id).Nodup := by
  have hnd := h.wired.channels
  rw [← video_streams_wire, List.map_map] at hnd
  exact hnd

section

variable {canvas : EncoderSetting} {t : Tracked}

/-- The picture of a stream with the default place, as the mixer tells it. -/
theorem Tracking.default_desc (h : Tracking canvas t) {s : Stream} (hs : s ∈ t.cf.video_streams)
    (hd : s.ptr ∈ t.defaults) :
    t.cf.filters.video_mixer.get_channel_desc s.channel_id =
      some (default_layout canvas s.channel_id) := by
  obtain ⟨hm, hw, hv⟩ := mem_video_streams hs
  obtain ⟨src, hsrc⟩ := h.gridded.2 (wire s) hw hv hd
  have hlt : s.channel_id < video_mixer.MAX_CHANNELS :=
    Nat.lt_trans (h.orderly.sound.wired.range _ hw) (by decide)
  have hidle : (t.cf.filters.video_mixer.channels_ s.channel_id).idle_ = false :=
    (h.orderly.sound.wired.employed _ hlt).mpr
      (List.mem_map.mpr ⟨wire s, List.mem_filter.mpr ⟨hw, hv⟩, rfl⟩)
  change t.cf.filters.video_mixer.channels_ s.channel_id = _ at hsrc
  unfold CTX.get_channel_desc
  rw [if_neg (by omega), Int.toNat_natCast]
  dsimp only
  rw [if_neg (by rw [hidle]; decide), hsrc]
  rfl

theorem Tracking.video_channels (h : Tracking canvas t) (hw : 0 ≤ canvas.width)
    (hh : 0 ≤ canvas.height) : VideoChannels t canvas := by
  have hsound := h.orderly.sound
  have hcnt : t.cf.filters.video_stream_cnt_ = t.cf.video_streams.length := by
    rw [hsound.wired.video_cnt, ← video_streams_wire, List.length_map]
  have hrange : ∀ s ∈ t.cf.video_streams, s.channel_id < MAX_STREAMS := fun s hs =>
    hsound.wired.range _ (mem_video_streams hs).2.1
  refine ⟨hsound.video_distinct, hrange, hcnt, ?_, fun s hs hsink => ?_, fun hlt => ?_,
    fun s hs hd => ?_, fun s hs s' hs' hd hd' hne desc desc' hdesc hdesc' => ?_⟩
  · have hpublisher : (⟨.video_tee_, MAX_STREAMS, .video_publisher_, 0⟩ : MSQueue) ∈
        first_links := by simp [first_links]
    exact outputs_mem hsound.wired.linked (hsound.wired.first _ hpublisher)
  · obtain ⟨-, hm, hv⟩ := mem_video_streams hs
    have hlink := outputs_mem hsound.wired.linked (hsound.wired.sinks _ hm hsink)
    unfold Wire.sink_link at hlink
    rw [hv] at hlink
    exact hlink
  · rcases hsound.wired.find_video_free_pin (by omega) with
      ⟨cid, m', hfind, -, -, hcid, hidle⟩ | ⟨-, hno⟩
    · refine ⟨cid, _, hfind, hcid, fun s hs heq => ?_⟩
      obtain ⟨-, hm, hv⟩ := mem_video_streams hs
      exact hsound.wired.idle_unused hcid hidle
        (List.mem_map.mpr ⟨wire s, List.mem_filter.mpr ⟨hm, hv⟩, heq⟩)
    · exact absurd h.orderly.ordered.has_end hno
  · exact ⟨_, h.default_desc hs hd, default_layout_inside hw hh (hrange s hs)⟩
  · rw [h.default_desc hs hd, Option.some.injEq] at hdesc
    rw [h.default_desc hs' hd', Option.some.injEq] at hdesc'
    rw [← hdesc, ← hdesc']
    refine default_layout_disjoint hw hh fun hcid => hne ?_
    have hnd := (List.nodup_map_iff_inj_on
      ((List.Nodup.of_map _ hsound.owned.streams_nodup).filter _)).mp hsound.video_distinct
    rw [hnd s hs s' hs' hcid]

end

/-- In every run of a director conference the video streams have channels of their own,
and the default pictures are inside the canvas and do not meet. -/
theorem each_video_stream_has_its_own_channel_and_place {env : Env} {want_alpha : Nat → Int}
    {id : Int} (width height : Nat) {calls : List Call} {t : Tracked}
    (hrun : run track (Tracked.new env want_alpha id
      { video_mixer.defaultSetting with width, height }) calls = .ok t)
    (hcalls : ∀ call ∈ calls, is_member_call call = true) :
    VideoChannels t { video_mixer.defaultSetting with width, height } := by
  have h : Tracking { video_mixer.defaultSetting with width, height } t :=
    run_keeps_of_meets (C := fun _ call => is_member_call call = true)
      (fun _ _ _ h hc hs => h.step hc hs) (new_tracking env want_alpha id _)
      (meets_of_forall fun call hcall _ => hcalls call hcall) hrun
  exact h.video_channels (Int.natCast_nonneg width) (Int.natCast_nonneg height)

/-- The second and the third of three streams have the default place on a canvas of
100 by 100. -/
theorem three_video_streams :
    ∃ t, run track (Tracked.new Env.still (fun _ => 255) 1
        { video_mixer.defaultSetting with width := (100 : Nat), height := (100 : Nat) })
        [.addStream Env.still [("payload", "100")],
          .addStreamWithPublisher Env.still [("payload", "100")],
          .delStream [("streamid", "2")], .addStream Env.still [("payload", "100")]] = .ok t ∧
      t.defaults = [2, 1] ∧
      t.cf.streams_.map Stream.channel_id = [1, 0] ∧
      VideoChannels t
        { video_mixer.defaultSetting with width := (100 : Nat), height := (100 : Nat) } := by
  obtain ⟨t, hrun, hdefaults, hids⟩ : ∃ t, run track (Tracked.new Env.still (fun _ => 255) 1
        { video_mixer.defaultSetting with width := (100 : Nat), height := (100 : Nat) })
        [.addStream Env.still [("payload", "100")],
          .addStreamWithPublisher Env.still [("payload", "100")],
          .delStream [("streamid", "2")], .addStream Env.still [("payload", "100")]] = .ok t ∧
      t.defaults = [2, 1] ∧ t.cf.streams_.map Stream.channel_id = [1, 0] := ⟨_, rfl, rfl, rfl⟩
  exact ⟨t, hrun, hdefaults, hids,
    each_video_stream_has_its_own_channel_and_place 100 100 hrun (by simp [is_member_call])⟩

end zonekey_mcu.conference
