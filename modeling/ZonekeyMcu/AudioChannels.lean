-- The channels of the audio streams. The mixer is asked for a pin with no output,
-- while the channel of a stream is an input pin, so the numbers are right as long
-- as every audio stream links an output.
import ZonekeyMcu.ConferenceCalls

open runs memory zonekey_mcu.members zonekey_mcu.options zonekey_mcu.director
open zonekey_mcu.filter_graph

namespace zonekey_mcu.director

/-- Every audio stream has its output, and got its input. -/
def Heard (f : Filters) (ws : List Wire) : Prop :=
  ∀ w ∈ ws, w.is_audio = true → w.support_sink = true ∧ w.source_link ∈ f.links

variable {f : Filters} {ws : List Wire} {w : Wire}

theorem audio_not_video (ha : w.is_audio = true) : w.is_video = false := by
  by_contra hv
  rw [Bool.not_eq_false] at hv
  rw [video_not_audio hv] at ha
  cases ha

/-- A pin of the audio mixer with no output has no input. -/
theorem Wired.audio_input_free (h : Wired f ws) (hh : Heard f ws) {cid : Nat}
    (hout : outputs f.links .audio_mixer_ cid = none) :
    inputs f.links .audio_mixer_ cid = none := by
  rw [outputs_none] at hout
  rw [inputs_none]
  rintro q hq hf rfl
  rcases h.known q hq with hfirst | ⟨w, hw, rfl | ⟨-, rfl⟩⟩
  · exact (first_pins hfirst 0).2.2.1 hf
  · cases hv : w.is_video with
    | true => simp [Wire.source_link, hv] at hf
    | false =>
      have ha : w.is_audio = true := (h.payloads w hw).resolve_left (by rw [hv]; decide)
      have hlink := h.sinks w hw (hh w hw ha).1
      apply hout w.sink_link hlink
      · simp [Wire.sink_link, hv]
      · rfl
  · simp [Wire.sink_link] at hf

theorem heard_append {f' : Filters} (hh : Heard f ws) (hold : ∀ q ∈ f.links, q ∈ f'.links)
    (hnew : w.is_audio = true → w.support_sink = true ∧ w.source_link ∈ f'.links) :
    Heard f' (ws ++ [w]) := by
  intro v hv ha
  rcases List.mem_append.mp hv with hv | hv
  · exact (hh v hv ha).imp_right (hold _)
  · rw [List.mem_singleton.mp hv] at ha ⊢
    exact hnew ha

/-- A new stream is heard when it is a video stream, or has a sink. -/
theorem Wired.add_stream_heard (h : Wired f ws) (hh : Heard f ws) {s s' : Stream}
    (hp : ∀ w' ∈ ws, w'.ptr ≠ s.ptr)
    (hpay : (wire s).is_video = true ∨ (wire s).is_audio = true)
    {params : KVS} {rc : Int} {f' : Filters} (hadd : f.add_stream s params = .ok (rc, s', f'))
    (hrc : 0 ≤ rc)
    (hsink : (wire s).is_audio = true → f.audio_stream_cnt_ < MAX_STREAMS →
      s.support_sink = true) :
    Heard f' (ws ++ [wire s']) := by
  rcases hpay with hv | ha
  · rw [add_stream_video hv] at hadd
    rcases h.add_video_stream hp hv params with ⟨-, hno⟩ | ⟨herr, -⟩ |
      ⟨-, cid, -, g, -, -, -, hok, -, hold, -⟩
    · rw [hno] at hadd
      cases hadd
      exact absurd hrc (by decide)
    · rw [herr] at hadd
      cases hadd
    · rw [hok] at hadd
      cases hadd
      refine heard_append hh hold fun ha => ?_
      rw [video_not_audio (by exact hv)] at ha
      cases ha
  · rw [add_stream_audio ha] at hadd
    rcases h.add_audio_stream hp ha with ⟨-, hno⟩ | ⟨hcnt, cid, g, hcid, hout, hok, hlinks, -, -⟩
    · rw [hno] at hadd
      cases hadd
      exact absurd hrc (by decide)
    · rw [hok] at hadd
      cases hadd
      have hv : (wire (s.set_channel_id cid)).is_video = false := audio_not_video (by exact ha)
      obtain ⟨-, hold, -, -, hsource⟩ := h.wire_up (w := wire (s.set_channel_id cid)) hp hcid
        (by simpa [Wire.sink_link, hv] using hout)
      rw [← hlinks] at hold hsource
      refine heard_append hh hold fun _ => ⟨hsink ha hcnt, hsource ?_⟩
      simpa [Wire.source_link, hv] using h.audio_input_free hh hout

theorem Wired.remove_heard {before after : List Wire} (h : Wired f (before ++ w :: after))
    (hh : Heard f (before ++ w :: after)) (hp : ∀ w' ∈ before ++ after, w'.ptr ≠ w.ptr)
    {f' : Filters} (hlinks : f'.links = wire_down f.links w) : Heard f' (before ++ after) := by
  obtain ⟨-, hmem⟩ := wire_down_links h.linked (h.range w (by simp))
  intro v hv ha
  obtain ⟨hsink, hlink⟩ := hh v (mem_middle hv) ha
  refine ⟨hsink, ?_⟩
  rw [hlinks, hmem]
  exact ⟨hlink, other_not_linked (hp v hv) (Or.inl rfl)⟩

end zonekey_mcu.director

namespace zonekey_mcu.conference

variable {c : Conference}

/-! ## Each step keeps the audio streams heard -/

/-- The invariant of this law, over that of every conference. -/
structure Hearing (c : Conference) : Prop where
  sound : Sound c
  heard : Heard c.filters (c.streams_.map wire)

theorem Hearing.change {c' : Conference} (h : Hearing c) (hc : Change c c') : Hearing c' := by
  refine ⟨h.sound.change hc, ?_⟩
  have hh := h.heard
  cases hc with
  | marked => exact hh
  | lost => exact hh
  | source_gone => exact hh
  | sink_gone => simpa [Function.comp_def] using hh
  | stream_gone hs hf =>
    rcases h.sound.stream_gone hs with ⟨herr, -⟩ | ⟨filters, hok, hlinks, -, -⟩
    · rw [herr] at hf
      cases hf
    · rw [hok] at hf
      cases hf
      have hw := h.sound.wired
      have hne := other_streams h.sound.owned.accounts hs
      rw [hs, List.map_append, List.map_cons] at hw hh
      rw [List.map_append] at hne ⊢
      exact hw.remove_heard hh hne hlinks
  | source_turn => exact hh
  | sink_turn => exact hh
  | stream_turn env hs => simpa [hs] using hh

theorem Hearing.changes {c' : Conference} (h : Hearing c) (hc : Changes c c') : Hearing c' := by
  induction hc with
  | refl => exact h
  | tail _ hstep ih => exact ih.change hstep

/-- The call adds an audio stream that has no sink. -/
def Conference.adds_mute_stream (c : Conference) : Call → Prop
  | .addStreamWithPublisher _ params =>
    chk_params params ["payload"] = none ∧ is_audio_payload (param_i params "payload") = true ∧
      c.filters.audio_stream_cnt_ < MAX_STREAMS
  | _ => False

theorem Hearing.step {call : Call} {c' : Conference} (h : Hearing c)
    (hcall : ¬ c.adds_mute_stream call) (hs : step c call = .ok c') : Hearing c' := by
  obtain ⟨he, hsound⟩ := h.sound.step hs
  refine ⟨hsound, ?_⟩
  cases he with
  | changes hc => exact (h.changes hc).heard
  | refused env params hc => exact (Hearing.changes ⟨h.sound.counted, h.heard⟩ hc).heard
  | addSource env params => exact h.heard
  | addSink env params hchk hpay hkind ht =>
    rename_i payload target
    obtain ⟨-, -, -, hwire, -⟩ := subscribe_frame c target c.mem.next
    obtain ⟨graphics_, streams_, heq⟩ := subscribe_same c target c.mem.next
    have hh := h.heard
    rw [← hwire] at hh
    unfold Conference.sink_added Conference.adding
    change Heard (c.subscribe target c.mem.next).filters
      ((c.subscribe target c.mem.next).streams_.map wire)
    rw [heq] at hh ⊢
    exact hh
  | addStream env sink publisher params hkind htype hchk hpay hadd hrc =>
    unfold Conference.stream_added
    rw [List.map_append]
    refine h.sound.wired.add_stream_heard h.heard h.sound.owned.fresh_wire
      (stream_wire_kind hpay) hadd hrc fun ha hcnt => ?_
    cases call with
    | addStream env' params' => exact hkind.2.2.1
    | addStreamWithPublisher env' params' =>
      obtain ⟨rfl, rfl, -, -⟩ := hkind
      exact absurd ⟨hchk, ha, hcnt⟩ hcall
    | _ => exact hkind.elim
  | edit => exact h.heard

/-! ## The law -/

def Conference.audio_streams (c : Conference) : List Stream :=
  c.streams_.filter fun s => is_audio_payload s.payload_type

/-- The queue between the source filter of a stream and the audio mixer. -/
def audio_queue (s : Stream) : MSQueue :=
  ⟨.source_filter s.ptr, 0, .audio_mixer_, s.channel_id⟩

structure AudioChannels (c : Conference) : Prop where
  distinct : (c.audio_streams.map Stream.channel_id).Nodup
  source_out : ∀ s ∈ c.audio_streams,
    outputs c.filters.links (.source_filter s.ptr) 0 = some (audio_queue s)
  source_in : ∀ s ∈ c.audio_streams,
    inputs c.filters.links .audio_mixer_ s.channel_id = some (audio_queue s)
  counter : c.filters.audio_stream_cnt_ = c.audio_streams.length
  free_pin : c.audio_streams.length < MAX_STREAMS → ∃ pin,
    c.filters.find_audio_free_pin = .ok pin ∧ ∀ s ∈ c.audio_streams, s.channel_id ≠ pin

theorem audio_streams_wire (c : Conference) :
    c.audio_streams.map wire = (c.streams_.map wire).filter Wire.is_audio := by
  unfold Conference.audio_streams
  rw [List.filter_map]
  rfl

theorem mem_audio_streams {s : Stream} (hs : s ∈ c.audio_streams) :
    wire s ∈ c.streams_.map wire ∧ (wire s).is_audio = true := by
  have hm := List.mem_filter.mp hs
  exact ⟨List.mem_map_of_mem hm.1, hm.2⟩

theorem Hearing.queue (h : Hearing c) {s : Stream} (hs : s ∈ c.audio_streams) :
    audio_queue s ∈ c.filters.links ∧ (wire s).sink_link ∈ c.filters.links ∧
      (wire s).sink_link.f1 = .audio_mixer_ := by
  obtain ⟨hm, ha⟩ := mem_audio_streams hs
  obtain ⟨hsink, hsource⟩ := h.heard (wire s) hm ha
  have hv := audio_not_video ha
  have hqueue : (wire s).source_link = audio_queue s := by
    unfold Wire.source_link
    rw [hv]
    rfl
  refine ⟨hqueue ▸ hsource, h.sound.wired.sinks (wire s) hm hsink, ?_⟩
  simp [Wire.sink_link, hv]

theorem Hearing.distinct (h : Hearing c) : (c.audio_streams.map Stream.channel_id).Nodup := by
  refine (List.nodup_map_iff_inj_on ?_).mpr fun s hs t ht hcid => ?_
  · exact (List.Nodup.of_map _ h.sound.owned.streams_nodup).filter _
  · have hq := h.sound.wired.linked.inp _ (h.queue hs).1 _ (h.queue ht).1 rfl hcid
    have hptr : s.ptr = t.ptr := by
      have hf := congrArg MSQueue.f1 hq
      simpa [audio_queue] using hf
    exact List.inj_on_of_nodup_map h.sound.owned.streams_nodup (List.mem_filter.mp hs).1
      (List.mem_filter.mp ht).1 hptr

theorem Hearing.audio_channels (h : Hearing c) : AudioChannels c := by
  have hcnt : c.filters.audio_stream_cnt_ = c.audio_streams.length := by
    rw [h.sound.wired.audio_cnt, ← audio_streams_wire, List.length_map]
  refine ⟨h.distinct, fun s hs => ?_, fun s hs => ?_, hcnt, fun hlt => ?_⟩
  · exact outputs_mem h.sound.wired.linked (h.queue hs).1
  · exact inputs_mem h.sound.wired.linked (h.queue hs).1
  · obtain ⟨pin, -, hfind, hout⟩ := h.sound.wired.find_audio_free_pin (by omega)
    refine ⟨pin, hfind, fun s hs hpin => ?_⟩
    obtain ⟨-, hlink, hf⟩ := h.queue hs
    exact outputs_none.mp hout _ hlink hf hpin

/-- In a run that adds no audio stream without a sink, the audio streams have
channels of their own. -/
theorem each_audio_stream_has_its_own_channel {env : Env} {want_alpha : Nat → Int} {id : Int}
    {calls : List Call} {c : Conference}
    (hrun : run step (Conference.new .CT_DIRECTOR env want_alpha id) calls = .ok c)
    (hcalls : Meets step (fun c call => ¬ c.adds_mute_stream call)
      (Conference.new .CT_DIRECTOR env want_alpha id) calls) : AudioChannels c := by
  have hstart : Hearing (Conference.new .CT_DIRECTOR env want_alpha id) :=
    ⟨new_sound _ env want_alpha id, fun w hw => absurd hw List.not_mem_nil⟩
  exact (run_keeps_of_meets (fun _ _ _ h hc hs => h.step hc hs) hstart hcalls hrun).audio_channels

/-- Streams with a sink of their own get channels 0 and 1. -/
theorem two_audio_streams : ∃ c, run step (Conference.new .CT_DIRECTOR Env.still (fun _ => 255) 1)
      [.addStream Env.still [("payload", "0")], .addStream Env.still [("payload", "102")]] = .ok c ∧
    c.streams_.map Stream.channel_id = [0, 1] ∧ AudioChannels c := by
  obtain ⟨c, hrun, hids⟩ : ∃ c, run step
      (Conference.new .CT_DIRECTOR Env.still (fun _ => 255) 1)
      [.addStream Env.still [("payload", "0")], .addStream Env.still [("payload", "102")]] = .ok c ∧
      c.streams_.map Stream.channel_id = [0, 1] := ⟨_, rfl, rfl⟩
  refine ⟨c, hrun, hids, each_audio_stream_has_its_own_channel hrun ?_⟩
  exact meets_cons id rfl (meets_cons id rfl (meets_nil _))

/-- Two streams without a sink both get channel 0. -/
theorem two_mute_streams_share_a_channel :
    ∃ c, run step (Conference.new .CT_DIRECTOR Env.still (fun _ => 255) 1)
        [.addStreamWithPublisher Env.still [("payload", "0")],
          .addStreamWithPublisher Env.still [("payload", "0")]] = .ok c ∧
      c.audio_streams.map Stream.channel_id = [0, 0] ∧ ¬ AudioChannels c := by
  refine ⟨_, rfl, rfl, fun h => ?_⟩
  have hnd : [0, 0].Nodup := h.distinct
  exact absurd hnd (by decide)

end zonekey_mcu.conference
