-- What a stream does to the mixers when it comes and when it goes. It is refused
-- by a counter, or it gets a channel that no other stream of its kind has.
import ZonekeyMcu.Wiring

open zonekey_mcu.members zonekey_mcu.options zonekey_mcu.filter_graph
open zonekey_mcu.video_mixer (Ordered)

namespace zonekey_mcu.director

variable {f : Filters} {ws : List Wire} {w : Wire}

/-! ## Audio streams -/

/-- With fewer than nine audio streams, a free output of the mixer is found. -/
theorem Wired.find_audio_free_pin (h : Wired f ws) (hcnt : f.audio_stream_cnt_ < MAX_STREAMS) :
    ∃ i < MAX_STREAMS, f.find_audio_free_pin = .ok i ∧
      outputs f.links .audio_mixer_ i = none := by
  have hused : ((ws.filter Wire.is_audio).map Wire.cid_).length < MAX_STREAMS := by
    have := h.audio_cnt
    rw [List.length_map]
    omega
  obtain ⟨j, hj, hnot⟩ := exists_unused hused
  have hfree : outputs f.links .audio_mixer_ j = none := by
    rw [outputs_none]
    rintro q hq hf rfl
    rcases h.known q hq with hfirst | ⟨w, hw, rfl | ⟨-, rfl⟩⟩
    · have := (first_pins hfirst 0).2.2.2.2.1 hf
      rw [this] at hj
      exact absurd hj (by decide)
    · simp [Wire.source_link] at hf
    · have haudio : w.is_audio = true := by
        rcases h.payloads w hw with hv | ha
        · simp [Wire.sink_link, hv] at hf
        · exact ha
      exact hnot (List.mem_map.mpr ⟨w, List.mem_filter.mpr ⟨hw, haudio⟩, rfl⟩)
  unfold Filters.find_audio_free_pin
  cases hfind : (List.range MAX_STREAMS).find? fun i =>
      (outputs f.links .audio_mixer_ i).isNone with
  | none =>
    have := List.find?_range_eq_none.mp hfind j hj
    simp [hfree] at this
  | some i =>
    obtain ⟨hnone, hi, -⟩ := List.find?_range_eq_some.mp hfind
    exact ⟨i, List.mem_range.mp hi, rfl, Option.isNone_iff_eq_none.mp hnone⟩

/-- A new stream with its links, when its channel is its own. -/
theorem Wired.append (h : Wired f ws) (hp : ∀ w' ∈ ws, w'.ptr ≠ w.ptr)
    (hcid : w.cid_ < MAX_STREAMS) (hout : outputs f.links w.sink_link.f1 w.cid_ = none)
    (hpay : w.is_video = true ∨ w.is_audio = true)
    (hin : w.is_video = true → inputs f.links w.source_link.f2 w.cid_ = none) {f' : Filters}
    (hlinks : f'.links = director.wire_up f.links w)
    (haudio : f'.audio_stream_cnt_ = ((ws ++ [w]).filter Wire.is_audio).length)
    (hvideo : f'.video_stream_cnt_ = ((ws ++ [w]).filter Wire.is_video).length)
    (hchannels : (((ws ++ [w]).filter Wire.is_video).map Wire.cid_).Nodup)
    (hemployed : ∀ i < video_mixer.MAX_CHANNELS, (f'.video_mixer.channels_ i).idle_ = false ↔
      i ∈ ((ws ++ [w]).filter Wire.is_video).map Wire.cid_) : Wired f' (ws ++ [w]) := by
  obtain ⟨hlinked, hold, hnew, hsink, hsource⟩ := h.wire_up hp hcid hout
  refine ⟨hlinks ▸ hlinked, ?_, ?_, ?_, ?_, ?_, haudio, hvideo, hchannels, ?_, hemployed⟩
  · intro q hq
    rw [hlinks]
    exact hold q (h.first q hq)
  · intro q hq
    rw [hlinks] at hq
    rcases hnew q hq with hq | hq
    · refine (h.known q hq).imp_right ?_
      rintro ⟨w', hw', hl⟩
      exact ⟨w', List.mem_append_left _ hw', hl⟩
    · exact Or.inr ⟨w, List.mem_append_right _ (List.mem_singleton_self _), hq⟩
  all_goals
    intro w' hw'
    rcases List.mem_append.mp hw' with hw' | hw'
  · exact h.payloads w' hw'
  · rwa [List.mem_singleton.mp hw']
  · intro hs
    rw [hlinks]
    exact hold _ (h.sinks w' hw' hs)
  · rw [List.mem_singleton.mp hw', hlinks]
    exact hsink
  · intro hv
    rw [hlinks]
    exact hold _ (h.videos w' hw' hv)
  · rw [List.mem_singleton.mp hw', hlinks]
    exact fun hv => hsource (hin hv)
  · exact h.range w' hw'
  · rwa [List.mem_singleton.mp hw']

/-- An audio stream is refused by the counter, or gets the channel of a free output. -/
theorem Wired.add_audio_stream (h : Wired f ws) {s : Stream} (hp : ∀ w' ∈ ws, w'.ptr ≠ s.ptr)
    (ha : (wire s).is_audio = true) :
    (MAX_STREAMS ≤ f.audio_stream_cnt_ ∧ f.add_audio_stream s = .ok (-2, s, f)) ∨
    (f.audio_stream_cnt_ < MAX_STREAMS ∧ ∃ cid f', cid < MAX_STREAMS ∧
      outputs f.links .audio_mixer_ cid = none ∧
      f.add_audio_stream s = .ok (0, s.set_channel_id cid, f') ∧
      f'.links = director.wire_up f.links (wire (s.set_channel_id cid)) ∧
      f'.video_mixer = f.video_mixer ∧ Wired f' (ws ++ [wire (s.set_channel_id cid)])) := by
  unfold Filters.add_audio_stream
  by_cases hcnt : f.audio_stream_cnt_ ≥ MAX_STREAMS
  · exact Or.inl ⟨hcnt, if_pos hcnt⟩
  · right
    rw [if_neg hcnt]
    obtain ⟨cid, hcid, hfind, hout⟩ := h.find_audio_free_pin (by omega)
    have haw : (wire (s.set_channel_id cid)).is_audio = true := ha
    have hv : (wire (s.set_channel_id cid)).is_video = false := by
      by_contra hv
      rw [Bool.not_eq_false] at hv
      rw [video_not_audio hv] at haw
      cases haw
    refine ⟨by omega, cid, { f with
      links := director.wire_up f.links (wire (s.set_channel_id cid))
      audio_stream_cnt_ := f.audio_stream_cnt_ + 1 }, hcid, hout, ?_, rfl, rfl, ?_⟩
    · simp only [hfind, ok_bind, pure_eq_ok]
      unfold director.wire_up
      simp only [Wire.source_link, Wire.sink_link, hv, Bool.false_eq_true, if_false]
      cases hsink : s.support_sink <;>
        simp [Filters.link, wire, Stream.set_channel_id, hsink]
    · refine h.append (w := wire (s.set_channel_id cid)) hp hcid ?_ (Or.inr haw)
        (fun hn => ?_) rfl ?_ ?_ ?_ ?_
      · simpa [Wire.sink_link, hv] using hout
      · rw [hv] at hn
        cases hn
      · simp [List.filter_append, haw, h.audio_cnt]
      · simp [List.filter_append, hv, h.video_cnt]
      · simpa [List.filter_append, hv] using h.channels
      · simpa [List.filter_append, hv] using h.employed

/-! ## Video streams -/

/-- A channel of the mixer is in use for each video stream, so with fewer than nine
of them the first idle channel is one of the first nine. -/
theorem Wired.get_channel (h : Wired f ws) (hcnt : f.video_stream_cnt_ < MAX_STREAMS) :
    (∃ i m', f.video_mixer.get_channel = .ok (Int.ofNat i, m') ∧
      m' = { f.video_mixer.set_channel i (f.video_mixer.channels_ i).employ with
        zorder_ := m'.zorder_ } ∧
      i < MAX_STREAMS ∧ (f.video_mixer.channels_ i).idle_ = true) ∨
    (f.video_mixer.get_channel = .error .outOfBounds ∧ ¬ f.video_mixer.has_end) := by
  have hlen : ((ws.filter Wire.is_video).map Wire.cid_).length < MAX_STREAMS := by
    have := h.video_cnt
    rw [List.length_map]
    omega
  have h9 : MAX_STREAMS = 9 := rfl
  have h20 : video_mixer.MAX_CHANNELS = 20 := rfl
  cases hget : f.video_mixer.get_channel with
  | error e =>
    obtain ⟨rfl, hno⟩ := get_channel_error hget
    exact Or.inr ⟨rfl, hno⟩
  | ok r =>
    obtain ⟨c, m'⟩ := r
    left
    rcases video_mixer.get_channel_cases hget with ⟨-, -, hall⟩ |
      ⟨i, z, rfl, hi, hidle, hbefore, -, rfl⟩
    · have := le_length_of_used fun j hj => (h.employed j hj).mp (hall j hj)
      omega
    · refine ⟨i, _, rfl, rfl, ?_, hidle⟩
      have := le_length_of_used fun j hj => (h.employed j (by omega)).mp (hbefore j hj)
      omega

theorem Wired.find_video_free_pin (h : Wired f ws) (hcnt : f.video_stream_cnt_ < MAX_STREAMS) :
    (∃ cid m', f.find_video_free_pin = .ok (cid, { f with video_mixer := m' }) ∧
      m' = { f.video_mixer.set_channel cid (f.video_mixer.channels_ cid).employ with
        zorder_ := m'.zorder_ } ∧
      (Ordered f.video_mixer → Ordered m') ∧
      cid < MAX_STREAMS ∧ (f.video_mixer.channels_ cid).idle_ = true) ∨
    (f.find_video_free_pin = .error .outOfBounds ∧ ¬ f.video_mixer.has_end) := by
  unfold Filters.find_video_free_pin
  rcases h.get_channel hcnt with ⟨cid, m', hget, heq, hcid, hidle⟩ | ⟨hget, hno⟩
  · left
    refine ⟨cid, m', ?_, heq, fun ho => ?_, hcid, hidle⟩
    · simp only [hget, ok_bind]
      rw [if_neg (by simp)]
      rfl
    · obtain ⟨c, m'', hget', ho'⟩ := get_channel_ordered ho
      rw [hget] at hget'
      cases hget'
      exact ho'
  · exact Or.inr ⟨by simp only [hget, error_bind], hno⟩

/-- The place that `set_video_stream_params_layout` gives. -/
def layout (setting : video_mixer.EncoderSetting) (cid : Nat) (params : KVS) :
    video_mixer.ChannelDesc :=
  if chk_params params ["dx", "dy", "dwidth", "dheight"] = none then
    layout_of_params setting cid params
  else default_layout setting cid

theorem set_layout (f : Filters) {cid : Nat} (params : KVS) (hcid : cid < video_mixer.MAX_CHANNELS)
    (hidle : (f.video_mixer.channels_ cid).idle_ = false) :
    ∃ rc, f.set_video_stream_params_layout cid params = .ok (rc, { f with
      video_mixer := f.video_mixer.set_channel cid (placed (f.video_mixer.channels_ cid)
        (layout f.video_mixer.get_encoder cid params)) }) := by
  have hset : ∀ desc : video_mixer.ChannelDesc, desc.id = cid →
      f.video_mixer.set_channel_desc desc = .ok (0, f.video_mixer.set_channel cid
        (placed (f.video_mixer.channels_ cid) desc)) := by
    intro desc hid
    have hemp : f.video_mixer.Employed desc.id := by
      rw [hid]
      exact ⟨by omega, by omega, by rwa [Int.toNat_natCast]⟩
    rcases set_channel_desc_cases f.video_mixer desc with ⟨-, hno⟩ | ⟨-, hok⟩
    · exact absurd hemp hno
    · rwa [hid, Int.toNat_natCast] at hok
  unfold Filters.set_video_stream_params_layout layout
  dsimp only
  split
  · exact ⟨1, by rw [hset _ rfl]; rfl⟩
  · exact ⟨0, by rw [hset _ rfl]; rfl⟩

theorem set_channel_twice (m : video_mixer.CTX) (i : Nat) (s t : video_mixer.InputSource)
    (zorder_ : List Int) : video_mixer.CTX.set_channel { m.set_channel i s with zorder_ } i t =
      { m.set_channel i t with zorder_ } := by
  unfold video_mixer.CTX.set_channel
  congr 1
  funext j
  by_cases hj : j = i <;> simp [hj]

/-- An idle channel is that of no video stream. -/
theorem Wired.idle_unused (h : Wired f ws) {cid : Nat} (hcid : cid < MAX_STREAMS)
    (hidle : (f.video_mixer.channels_ cid).idle_ = true) :
    cid ∉ (ws.filter Wire.is_video).map Wire.cid_ := by
  intro hm
  have hlt : cid < video_mixer.MAX_CHANNELS := Nat.lt_trans hcid (by decide)
  rw [(h.employed cid hlt).mpr hm] at hidle
  cases hidle

/-- The pins of an idle channel are free. -/
theorem Wired.video_pins (h : Wired f ws) {cid : Nat} (hcid : cid < MAX_STREAMS)
    (hidle : (f.video_mixer.channels_ cid).idle_ = true) :
    outputs f.links .video_tee_ cid = none ∧ inputs f.links .video_mixer_ cid = none := by
  have hnot := h.idle_unused hcid hidle
  have hwire : ∀ w ∈ ws, w.is_video = true → w.cid_ ≠ cid := by
    rintro w hw hv rfl
    exact hnot (List.mem_map.mpr ⟨w, List.mem_filter.mpr ⟨hw, hv⟩, rfl⟩)
  rw [outputs_none, inputs_none]
  constructor
  · rintro q hq hf rfl
    rcases h.known q hq with hfirst | ⟨w, hw, rfl | ⟨-, rfl⟩⟩
    · have := (first_pins hfirst 0).2.2.2.2.2 hf
      omega
    · simp [Wire.source_link] at hf
    · cases hv : w.is_video with
      | true => exact hwire w hw hv rfl
      | false => simp [Wire.sink_link, hv] at hf
  · rintro q hq hf rfl
    rcases h.known q hq with hfirst | ⟨w, hw, rfl | ⟨-, rfl⟩⟩
    · exact (first_pins hfirst 0).2.2.2.1 hf
    · cases hv : w.is_video with
      | true => exact hwire w hw hv rfl
      | false => simp [Wire.source_link, hv] at hf
    · simp [Wire.sink_link] at hf

/-- A video stream is refused by the counter, or gets the first idle channel. -/
theorem Wired.add_video_stream (h : Wired f ws) {s : Stream} (hp : ∀ w' ∈ ws, w'.ptr ≠ s.ptr)
    (hv : (wire s).is_video = true) (params : KVS) :
    (MAX_STREAMS ≤ f.video_stream_cnt_ ∧ f.add_video_stream s params = .ok (-2, s, f)) ∨
    (f.add_video_stream s params = .error .outOfBounds ∧ ¬ f.video_mixer.has_end) ∨
    (f.video_stream_cnt_ < MAX_STREAMS ∧ ∃ cid zorder_ f', cid < MAX_STREAMS ∧
      (f.video_mixer.channels_ cid).idle_ = true ∧
      (Ordered f.video_mixer → Ordered f'.video_mixer) ∧
      f.add_video_stream s params = .ok (0, s.set_channel_id cid, f') ∧
      f'.video_mixer = { f.video_mixer.set_channel cid (placed (f.video_mixer.channels_ cid).employ
        (layout f.video_mixer.get_encoder cid params)) with zorder_ } ∧
      (∀ q ∈ f.links, q ∈ f'.links) ∧ Wired f' (ws ++ [wire (s.set_channel_id cid)])) := by
  unfold Filters.add_video_stream
  by_cases hcnt : f.video_stream_cnt_ ≥ MAX_STREAMS
  · exact Or.inl ⟨hcnt, if_pos hcnt⟩
  · right
    rw [if_neg hcnt]
    rcases h.find_video_free_pin (by omega) with
      ⟨cid, m', hfind, heq, hordered, hcid, hidle⟩ | ⟨hfind, hno⟩
    · right
      have hvw : (wire (s.set_channel_id cid)).is_video = true := hv
      obtain ⟨hout, hin⟩ := h.video_pins hcid hidle
      have hpin : outputs f.links (wire (s.set_channel_id cid)).sink_link.f1 cid = none := by
        simpa [Wire.sink_link, hvw] using hout
      generalize m'.zorder_ = zorder_ at heq
      subst heq
      refine ⟨by omega, cid, zorder_, { f with
        links := director.wire_up f.links (wire (s.set_channel_id cid))
        video_mixer := { f.video_mixer.set_channel cid (placed (f.video_mixer.channels_ cid).employ
          (layout f.video_mixer.get_encoder cid params)) with zorder_ }
        video_stream_cnt_ := f.video_stream_cnt_ + 1 }, hcid, hidle, ?_, ?_, rfl,
        (h.wire_up (w := wire (s.set_channel_id cid)) hp hcid hpin).2.1, ?_⟩
      · intro ho
        refine ordered_congr (hordered ho) rfl fun i => ?_
        by_cases hi : i = cid
        · subst hi
          simp [placed]
        · simp [video_mixer.set_channel_ne _ _ hi]
      · have hlt : cid < video_mixer.MAX_CHANNELS := Nat.lt_trans hcid (by decide)
        obtain ⟨rc, hlay⟩ := set_layout { f with
          links := director.wire_up f.links (wire (s.set_channel_id cid))
          video_mixer := { f.video_mixer.set_channel cid (f.video_mixer.channels_ cid).employ with
            zorder_ } } params hlt (by simp [video_mixer.InputSource.employ])
        rw [set_channel_twice] at hlay
        simp only [hfind, ok_bind, pure_eq_ok]
        unfold director.wire_up at hlay ⊢
        simp only [Wire.source_link, Wire.sink_link, hvw, if_true] at hlay ⊢
        cases hsink : s.support_sink <;>
          simp only [wire, Stream.set_channel_id, hsink, Bool.false_eq_true, if_false, if_true,
            Filters.link] at hlay ⊢ <;>
          rw [hlay] <;> simp [video_mixer.CTX.get_encoder]
      · refine h.append (w := wire (s.set_channel_id cid)) hp hcid hpin (Or.inl hvw)
          (fun _ => ?_) rfl ?_ ?_ ?_ ?_
        · simpa [Wire.source_link, hvw] using hin
        · simp [List.filter_append, video_not_audio hvw, h.audio_cnt]
        · simp [List.filter_append, hvw, h.video_cnt]
        · have hnew :
              ([wire (s.set_channel_id cid)].filter Wire.is_video).map Wire.cid_ = [cid] := by
            simp [hvw]
          rw [List.filter_append, List.map_append, hnew]
          exact list_moves.nodup_append_one h.channels (h.idle_unused hcid hidle)
        · intro i hi
          rw [List.filter_append, List.map_append, List.mem_append, ← h.employed i hi]
          by_cases hic : i = cid
          · subst hic
            simp [placed, video_mixer.InputSource.employ, hvw]
          · simp [video_mixer.set_channel_ne _ _ hic, hvw, hic]
    · left
      exact ⟨by simp only [hfind, error_bind], hno⟩

/-! ## A stream goes -/

/-- The links that belong to another stream, or to none, are not those of `w`. -/
theorem first_not_linked {q : MSQueue} (hq : q ∈ first_links) : ¬ w.has_link q := by
  obtain ⟨hf1, hf2, -⟩ := first_pins hq w.ptr
  rintro (rfl | ⟨-, rfl⟩)
  · exact hf1 rfl
  · exact hf2 rfl

theorem other_not_linked {w' : Wire} (hp : w'.ptr ≠ w.ptr) {q : MSQueue} (hq : w'.has_link q) :
    ¬ w.has_link q := by
  have hsource : ∀ a b : Wire, a.source_link ≠ b.sink_link := by
    intro a b hab
    have hf := congrArg MSQueue.f1 hab
    simp only [Wire.source_link, Wire.sink_link] at hf
    split at hf <;> cases hf
  rintro hl
  rcases hq with rfl | ⟨-, rfl⟩ <;> rcases hl with heq | ⟨-, heq⟩
  · have hf := congrArg MSQueue.f1 heq
    simp only [Wire.source_link, MSFilter.source_filter.injEq] at hf
    exact hp hf
  · exact hsource _ _ heq
  · exact hsource _ _ heq.symm
  · have hf := congrArg MSQueue.f2 heq
    simp only [Wire.sink_link, MSFilter.sink_filter.injEq] at hf
    exact hp hf

theorem mem_middle {α : Type} {x y : α} {before after : List α} (h : y ∈ before ++ after) :
    y ∈ before ++ x :: after := by
  simp only [List.mem_append, List.mem_cons] at h ⊢
  tauto

/-- The other streams keep their links. -/
theorem Wired.remove {before after : List Wire} (h : Wired f (before ++ w :: after))
    (hp : ∀ w' ∈ before ++ after, w'.ptr ≠ w.ptr) {f' : Filters}
    (hlinks : f'.links = wire_down f.links w)
    (haudio : f'.audio_stream_cnt_ = ((before ++ after).filter Wire.is_audio).length)
    (hvideo : f'.video_stream_cnt_ = ((before ++ after).filter Wire.is_video).length)
    (hemployed : ∀ i < video_mixer.MAX_CHANNELS, (f'.video_mixer.channels_ i).idle_ = false ↔
      i ∈ ((before ++ after).filter Wire.is_video).map Wire.cid_) :
    Wired f' (before ++ after) := by
  have hcid : w.cid_ < MAX_STREAMS := h.range w (by simp)
  obtain ⟨hlinked, hmem⟩ := wire_down_links h.linked hcid
  refine ⟨hlinks ▸ hlinked, ?_, ?_, ?_, ?_, ?_, haudio, hvideo, ?_, ?_, hemployed⟩
  · intro q hq
    rw [hlinks, hmem]
    exact ⟨h.first q hq, first_not_linked hq⟩
  · intro q hq
    rw [hlinks, hmem] at hq
    refine (h.known q hq.1).imp_right ?_
    rintro ⟨w', hw', hl⟩
    refine ⟨w', ?_, hl⟩
    simp only [List.mem_append, List.mem_cons] at hw' ⊢
    rcases hw' with hw' | rfl | hw'
    · exact Or.inl hw'
    · exact absurd hl hq.2
    · exact Or.inr hw'
  · exact fun w' hw' => h.payloads w' (mem_middle hw')
  · intro w' hw' hs
    rw [hlinks, hmem]
    exact ⟨h.sinks w' (mem_middle hw') hs, other_not_linked (hp w' hw') (Or.inr ⟨hs, rfl⟩)⟩
  · intro w' hw' hv
    rw [hlinks, hmem]
    exact ⟨h.videos w' (mem_middle hw') hv, other_not_linked (hp w' hw') (Or.inl rfl)⟩
  · refine h.channels.sublist (List.Sublist.map _ (List.Sublist.filter _ ?_))
    exact List.Sublist.append_left (List.sublist_cons_self w after) before
  · exact fun w' hw' => h.range w' (mem_middle hw')

theorem Wired.del_audio_stream {before after : List Wire} {s : Stream}
    (h : Wired f (before ++ wire s :: after)) (hp : ∀ w' ∈ before ++ after, w'.ptr ≠ s.ptr)
    (ha : (wire s).is_audio = true) : ∃ f', f.del_audio_stream s = (0, f') ∧
      f'.links = wire_down f.links (wire s) ∧ f'.video_mixer = f.video_mixer ∧
      Wired f' (before ++ after) := by
  have hv : (wire s).is_video = false := by
    by_contra hv
    rw [Bool.not_eq_false] at hv
    rw [video_not_audio hv] at ha
    cases ha
  refine ⟨{ f with
    links := wire_down f.links (wire s)
    audio_stream_cnt_ := f.audio_stream_cnt_ - 1 }, ?_, rfl, rfl, ?_⟩
  · unfold Filters.del_audio_stream wire_down
    simp only [Wire.source_link, Wire.sink_link, hv, Bool.false_eq_true, if_false]
    cases hsink : s.support_sink <;>
      simp [Filters.unlink, wire, Stream.channel_id, hsink]
  · have hcnt := h.audio_cnt
    simp only [List.filter_append, List.filter_cons_of_pos ha, List.length_append,
      List.length_cons] at hcnt
    refine h.remove hp rfl ?_ ?_ ?_
    · simp only [List.filter_append, List.length_append]
      omega
    · simpa [List.filter_append, hv] using h.video_cnt
    · simpa [List.filter_append, hv] using h.employed

theorem Wired.del_video_stream {before after : List Wire} {s : Stream}
    (h : Wired f (before ++ wire s :: after)) (hp : ∀ w' ∈ before ++ after, w'.ptr ≠ s.ptr)
    (hv : (wire s).is_video = true) :
    (f.del_video_stream s = .error .outOfBounds ∧ ¬ f.video_mixer.has_end) ∨
    ∃ zorder_ f', f.del_video_stream s = .ok (0, f') ∧
      (Ordered f.video_mixer → Ordered f'.video_mixer) ∧
      (f.video_mixer.has_end → f'.video_mixer.has_end) ∧
      f'.links = wire_down f.links (wire s) ∧
      f'.video_mixer = { f.video_mixer.set_channel s.cid_
        (f.video_mixer.channels_ s.cid_).disemploy with zorder_ } ∧
      Wired f' (before ++ after) := by
  have hcid : s.cid_ < MAX_STREAMS := h.range (wire s) (by simp)
  unfold Filters.del_video_stream
  simp only [Stream.channel_id]
  rcases free_channel_cases (m := f.video_mixer) (Nat.lt_trans hcid (by decide)) with
    ⟨zorder_, hfree, hend⟩ | ⟨hfree, hno⟩
  · right
    refine ⟨zorder_, { f with
      links := wire_down f.links (wire s)
      video_mixer := { f.video_mixer.set_channel s.cid_
        (f.video_mixer.channels_ s.cid_).disemploy with zorder_ }
      video_stream_cnt_ := f.video_stream_cnt_ - 1 }, ?_, fun ho => ?_, hend, rfl, rfl, ?_⟩
    rotate_left
    · obtain ⟨rc, m', hfree', ho'⟩ := free_channel_ordered ho s.cid_
      rw [hfree] at hfree'
      cases hfree'
      exact ho'
    rotate_left
    · simp only [hfree, ok_bind, pure_eq_ok]
      unfold wire_down
      simp only [Wire.source_link, Wire.sink_link, hv, if_true]
      cases hsink : s.support_sink <;> simp [Filters.unlink, wire, hsink]
    · have hcnt := h.video_cnt
      have hnd := h.channels
      simp only [List.filter_append, List.filter_cons_of_pos hv, List.length_append,
        List.length_cons, List.map_append, List.map_cons] at hcnt hnd
      rw [List.nodup_middle, List.nodup_cons] at hnd
      refine h.remove hp rfl ?_ ?_ fun i hi => ?_
      · simpa [List.filter_append, video_not_audio hv] using h.audio_cnt
      · simp only [List.filter_append, List.length_append]
        omega
      · have hemp := h.employed i hi
        simp only [List.filter_append, List.filter_cons_of_pos hv, List.map_append,
          List.map_cons, List.mem_append, List.mem_cons] at hemp hnd ⊢
        by_cases his : i = s.cid_
        · subst his
          simp only [video_mixer.set_channel_self, video_mixer.InputSource.disemploy,
            Bool.true_eq_false, false_iff]
          exact hnd.1
        · rw [video_mixer.set_channel_ne _ _ his, hemp]
          have hne : i ≠ (wire s).cid_ := his
          tauto
  · exact Or.inl ⟨by simp only [hfree, error_bind], hno⟩

/-! ## Both kinds -/

theorem is_video_iff (s : Stream) : (wire s).is_video = true ↔ s.payload_type = 100 := by
  unfold Wire.is_video
  exact decide_eq_true_iff

theorem add_stream_video {s : Stream} (hv : (wire s).is_video = true) (params : KVS) :
    f.add_stream s params = f.add_video_stream s params := by
  unfold Filters.add_stream
  rw [if_pos ((is_video_iff s).mp hv)]

theorem add_stream_audio {s : Stream} (ha : (wire s).is_audio = true) (params : KVS) :
    f.add_stream s params = f.add_audio_stream s := by
  have hv : ¬ s.payload_type = 100 := by
    rw [← is_video_iff]
    intro hv
    rw [video_not_audio hv] at ha
    cases ha
  unfold Filters.add_stream
  rw [if_neg hv, if_pos (by exact ha)]

theorem del_stream_video {s : Stream} (hv : (wire s).is_video = true) :
    f.del_stream s = f.del_video_stream s := by
  unfold Filters.del_stream
  rw [if_pos ((is_video_iff s).mp hv)]

theorem del_stream_audio {s : Stream} (ha : (wire s).is_audio = true) :
    f.del_stream s = .ok (f.del_audio_stream s) := by
  have hv : ¬ s.payload_type = 100 := by
    rw [← is_video_iff]
    intro hv
    rw [video_not_audio hv] at ha
    cases ha
  unfold Filters.del_stream
  rw [if_neg hv, if_pos (by exact ha)]

/-- A new stream is refused, or gets a channel of its own. -/
theorem Wired.add_stream (h : Wired f ws) {s : Stream} (hp : ∀ w' ∈ ws, w'.ptr ≠ s.ptr)
    (hpay : (wire s).is_video = true ∨ (wire s).is_audio = true) (params : KVS) :
    f.add_stream s params = .ok (-2, s, f) ∨
    (f.add_stream s params = .error .outOfBounds ∧ ¬ f.video_mixer.has_end ∧
      (wire s).is_video = true) ∨
    ∃ cid f', f.add_stream s params = .ok (0, s.set_channel_id cid, f') ∧
      (Ordered f.video_mixer → Ordered f'.video_mixer) ∧
      Wired f' (ws ++ [wire (s.set_channel_id cid)]) := by
  rcases hpay with hv | ha
  · rw [add_stream_video hv]
    rcases h.add_video_stream hp hv params with ⟨-, hno⟩ | ⟨herr, hend⟩ |
      ⟨-, cid, -, f', -, -, ho, hok, -, -, hw⟩
    · exact Or.inl hno
    · exact Or.inr (Or.inl ⟨herr, hend, hv⟩)
    · exact Or.inr (Or.inr ⟨cid, f', hok, ho, hw⟩)
  · rw [add_stream_audio ha]
    rcases h.add_audio_stream hp ha with ⟨-, hno⟩ | ⟨-, cid, f', -, -, hok, -, hm, hw⟩
    · exact Or.inl hno
    · exact Or.inr (Or.inr ⟨cid, f', hok, fun ho => hm ▸ ho, hw⟩)

/-- A stream that goes gives its channel back. -/
theorem Wired.del_stream {before after : List Wire} {s : Stream}
    (h : Wired f (before ++ wire s :: after)) (hp : ∀ w' ∈ before ++ after, w'.ptr ≠ s.ptr) :
    (f.del_stream s = .error .outOfBounds ∧ ¬ f.video_mixer.has_end ∧
      (wire s).is_video = true) ∨
    ∃ f', f.del_stream s = .ok (0, f') ∧ f'.links = wire_down f.links (wire s) ∧
      (Ordered f.video_mixer → Ordered f'.video_mixer) ∧
      (f.video_mixer.has_end → f'.video_mixer.has_end) ∧ Wired f' (before ++ after) := by
  rcases h.payloads (wire s) (by simp) with hv | ha
  · rw [del_stream_video hv]
    rcases h.del_video_stream hp hv with ⟨herr, hno⟩ | ⟨-, f', hok, ho, hend, hl, -, hw⟩
    · exact Or.inl ⟨herr, hno, hv⟩
    · exact Or.inr ⟨f', hok, hl, ho, hend, hw⟩
  · obtain ⟨f', hok, hl, hm, hw⟩ := h.del_audio_stream hp ha
    rw [del_stream_audio ha, hok]
    exact Or.inr ⟨f', rfl, hl, fun ho => hm ▸ ho, fun hend => hm ▸ hend, hw⟩

end zonekey_mcu.director
