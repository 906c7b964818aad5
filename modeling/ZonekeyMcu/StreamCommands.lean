-- The commands that place the picture of a stream, or move it in the z-order. A
-- stream is found by its id alone, and the video mixer is given its channel
-- number, also when the number is that of an audio stream.
import ZonekeyMcu.ConferenceRuns
import ZonekeyMcu.Lib.Returns

open returns runs list_moves zonekey_mcu.members zonekey_mcu.options zonekey_mcu.director
open zonekey_mcu.video_mixer (CTX Op Ordered Lossless slots)

namespace zonekey_mcu.conference

variable {c : Conference}

/-! ## The channel of the named stream -/

/-- The video stream that the id names. -/
def Conference.video_stream (c : Conference) (sid : Int) : Option Stream :=
  (c.streams_.find? fun s => s.stream_id = sid).filter fun s => s.payload_type = 100

/-- The pictures after a change of the place of one channel, or of its position in
the z-order. -/
inductive OnlyChannel (m : CTX) (cid : Nat) : CTX → Prop
  | same : OnlyChannel m cid m
  | place (desc : video_mixer.ChannelDesc) :
      OnlyChannel m cid (m.set_channel cid (placed (m.channels_ cid) desc))
  | position {l : List Int} (h : Moves (cid : Int) m.order l) :
      OnlyChannel m cid { m with zorder_ := slots l }

/-- The command ends, and changes only the channel of the video stream that it
names. When it names none it fails, and all pictures stay. -/
def Conference.OnlyNamed (c : Conference) (params : KVS) : Prop :=
  ∃ rc results m, c.setParams params [] = .ok (rc, results, c.with_video_mixer m) ∧
    match c.video_stream (param_i params "streamid") with
    | some s => OnlyChannel c.filters.video_mixer s.channel_id m
    | none => rc < 0 ∧ m.channels_ = c.filters.video_mixer.channels_ ∧
        m.zorder_ = c.filters.video_mixer.zorder_

/-- The channel of a live video stream is in use. -/
theorem Sound.video_employed (h : Sound c) {s : Stream} (hs : s ∈ c.streams_)
    (hv : s.payload_type = 100) : c.filters.video_mixer.Employed s.channel_id := by
  have hw : wire s ∈ c.streams_.map wire := List.mem_map_of_mem hs
  have hlt : s.channel_id < video_mixer.MAX_CHANNELS :=
    Nat.lt_trans (h.wired.range _ hw) (by decide)
  have hidle := (h.wired.employed s.channel_id hlt).mpr
    (List.mem_map.mpr ⟨wire s, List.mem_filter.mpr ⟨hw, (is_video_iff s).mpr hv⟩, rfl⟩)
  exact ⟨by omega, by omega, by rwa [Int.toNat_natCast]⟩

/-- A change of one channel lists no channel twice. -/
theorem OnlyChannel.nodup {m m' : CTX} {cid : Nat} (h : OnlyChannel m cid m') (ho : Ordered m) :
    m'.order.Nodup := by
  cases h with
  | same => exact ho.nodup
  | place desc => exact ho.nodup
  | position hl =>
    obtain ⟨l, horders⟩ := ho
    have hp := hl.1
    rw [horders.order] at hp
    rw [(horders.permute hp).order]
    exact hp.nodup_iff.mpr horders.nodup

theorem video_stream_eq {params : KVS} {s : Stream}
    (hfind : c.streams_.find? (fun s => s.stream_id = param_i params "streamid") = some s) :
    c.video_stream (param_i params "streamid") = if s.payload_type = 100 then some s else none := by
  unfold Conference.video_stream
  rw [hfind]
  by_cases hv : s.payload_type = 100 <;> simp [hv]

/-- A command that reaches the mixer through a video stream, and loses no picture,
changes only its channel. -/
theorem Orderly.only_channel (h : Orderly c) {s : Stream} {op : Op} {params : KVS}
    (hcmd : c.commanded params = some (s, op)) (hv : s.payload_type = 100)
    (hop : Lossless c.filters.video_mixer op) : ∃ rc m,
      c.filters.video_mixer.call op = .ok (rc, m) ∧
      OnlyChannel c.filters.video_mixer s.channel_id m := by
  obtain ⟨hfind, hkind⟩ := commanded_some hcmd
  have hemp := h.sound.video_employed (List.mem_of_find?_eq_some hfind) hv
  rcases hkind with rfl | ⟨oper, rfl⟩
  · rcases set_channel_desc_cases c.filters.video_mixer (desc_of_params params s) with
      ⟨-, hno⟩ | ⟨-, hset⟩
    · exact absurd hemp hno
    · exact ⟨0, _, hset, .place _⟩
  · obtain ⟨l, horders⟩ := h.ordered
    have hm := (horders.employed _).mpr hemp
    obtain ⟨h0, h1⟩ := horders.range hm
    have hnear : oper = .BOTTOM → (s.channel_id : Int) ∈ l → l.idxOf (s.channel_id : Int) ≤ 1 := by
      rintro rfl -
      have hle := hop h0 (horders.mem_array hm)
      rwa [horders.array, video_mixer.idxOf_slots hm] at hle
    refine ⟨0, _, video_mixer.rezorder_orders horders oper h0 h1 hnear, .position ?_⟩
    rw [horders.order]
    exact video_mixer.moved_moves _ oper l

/-- Nothing else can go wrong. -/
theorem Orderly.only_named (h : Orderly c) (htype : c.type = .CT_DIRECTOR)
    {params : KVS} (hname : names_picture params)
    (hcond : ∀ s op, c.commanded params = some (s, op) →
      s.payload_type = 100 ∧ Lossless c.filters.video_mixer op) : c.OnlyNamed params := by
  have hanswer := h.sound.owned.setParams_picture htype hname []
  unfold Conference.Commands at hanswer
  cases hcmd : c.commanded params with
  | none =>
    rw [hcmd] at hanswer
    obtain ⟨results, hanswer⟩ := hanswer
    refine ⟨-1, results, c.filters.video_mixer, hanswer, ?_⟩
    cases c.video_stream (param_i params "streamid") with
    | none => exact ⟨by decide, rfl, rfl⟩
    | some s => exact .same
  | some r =>
    obtain ⟨s, op⟩ := r
    rw [hcmd] at hanswer
    dsimp only at hanswer
    obtain ⟨hv, hop⟩ := hcond s op hcmd
    obtain ⟨rc, m, hcall, hkeep⟩ := h.only_channel hcmd hv hop
    refine ⟨0, [], m, by rw [hanswer, hcall]; rfl, ?_⟩
    rw [video_stream_eq (commanded_some hcmd).1, if_pos hv]
    exact hkeep

/-- A command that reaches the mixer through an audio stream does not fail. -/
theorem Orderly.named_video (h : Orderly c) (htype : c.type = .CT_DIRECTOR)
    {params : KVS} (hname : names_picture params)
    (hkept : c.OnlyNamed params) {s : Stream} {op : Op}
    (hcmd : c.commanded params = some (s, op)) :
    s.payload_type = 100 ∧ Lossless c.filters.video_mixer op := by
  obtain ⟨rc, results, m, hok, hkeep⟩ := hkept
  have hanswer := h.sound.owned.setParams_picture htype hname []
  unfold Conference.Commands at hanswer
  rw [hcmd] at hanswer
  dsimp only at hanswer
  rw [video_stream_eq (commanded_some hcmd).1] at hkeep
  rw [hanswer] at hok
  obtain ⟨r, hcall, heq⟩ := map_inv hok
  simp only [Prod.mk.injEq] at heq
  obtain ⟨rfl, -, hm⟩ := heq
  have hm : r.2 = m := congrArg (fun c : Conference => c.filters.video_mixer) hm
  by_cases hv : s.payload_type = 100
  · rw [if_pos hv] at hkeep
    have hs := video_mixer.step_of_call hcall
    rw [hm] at hs
    exact ⟨hv, video_mixer.lossless_of_nodup h.ordered hs (hkeep.nodup h.ordered)⟩
  · rw [if_neg hv] at hkeep
    exact absurd hkeep.1 (by decide)

/-! ## The law -/

/-- In a run that loses no picture, a command that edits a picture changes only the
channel of the video stream that it names exactly when it reaches the mixer through
no stream or a video stream, and does not lose a picture itself. -/
theorem a_command_changes_only_the_named_channel {env : Env} {want_alpha : Nat → Int} {id : Int}
    {calls : List Call} {c : Conference}
    (hrun : run step (Conference.new .CT_DIRECTOR env want_alpha id) calls = .ok c)
    (hcalls : Meets step Conference.lossless (Conference.new .CT_DIRECTOR env want_alpha id) calls)
    {params : KVS} (hname : names_picture params) :
    c.OnlyNamed params ↔ ∀ s op, c.commanded params = some (s, op) →
      s.payload_type = 100 ∧ Lossless c.filters.video_mixer op :=
  have h := orderly_run hrun hcalls
  have htype := run_kind hrun
  ⟨fun hkept _ _ hcmd => h.named_video htype hname hkept hcmd, h.only_named htype hname⟩

/-- The command of the two examples: a new place for stream 2. -/
def place_stream_2 : KVS :=
  [("alpha", "9"), ("height", "8"), ("name", "v.desc"), ("streamid", "2"), ("width", "7"),
    ("x", "5"), ("y", "6")]

/-- Stream 2 is a video stream, and the command changes only its channel. -/
theorem a_video_stream_is_placed :
    ∃ c, run step (Conference.new .CT_DIRECTOR Env.still (fun _ => 255) 1)
        [.addStream Env.still [("payload", "100")], .setParams place_stream_2] = .ok c ∧
      (names_picture place_stream_2 ∧ c.OnlyNamed place_stream_2) := by
  obtain ⟨c, s, hrun, hcmd, hv⟩ : ∃ c s, run step
      (Conference.new .CT_DIRECTOR Env.still (fun _ => 255) 1)
      [.addStream Env.still [("payload", "100")], .setParams place_stream_2] = .ok c ∧
      c.commanded place_stream_2 = some (s, .set_channel_desc (desc_of_params place_stream_2 s)) ∧
      s.payload_type = 100 := ⟨_, _, rfl, rfl, rfl⟩
  have hname : names_picture place_stream_2 := Or.inl (by decide)
  refine ⟨c, hrun, hname, (a_command_changes_only_the_named_channel hrun ?_ hname).mpr ?_⟩
  · refine meets_cons trivial rfl (meets_cons ?_ rfl (meets_nil _))
    rintro s op hsome
    cases hsome
    trivial
  · rintro s' op hsome
    rw [hcmd] at hsome
    cases hsome
    exact ⟨hv, trivial⟩

/-- Stream 2 is an audio stream, and the command places the picture of stream 4. -/
theorem an_audio_stream_places_a_picture :
    ∃ c rc results c', run step (Conference.new .CT_DIRECTOR Env.still (fun _ => 255) 1)
        [.addStream Env.still [("payload", "0")], .addStream Env.still [("payload", "100")]] =
          .ok c ∧
      c.streams_.map (fun s => (s.stream_id, s.payload_type, s.channel_id)) =
        [(2, 0, 0), (4, 100, 0)] ∧
      c.setParams place_stream_2 [] = .ok (rc, results, c') ∧ rc = 0 ∧
      c'.filters.video_mixer.get_channel_desc 0 = some
        { id := 0, x := 5, y := 6, width := 7, height := 8, alpha := 9 } ∧
      ¬ c.OnlyNamed place_stream_2 := by
  obtain ⟨c, s, rc, results, c', hrun, hids, hset, hrc, hdesc, hcmd, ha⟩ :
      ∃ c s rc results c', run step (Conference.new .CT_DIRECTOR Env.still (fun _ => 255) 1)
        [.addStream Env.still [("payload", "0")], .addStream Env.still [("payload", "100")]] =
          .ok c ∧
      c.streams_.map (fun s => (s.stream_id, s.payload_type, s.channel_id)) =
        [(2, 0, 0), (4, 100, 0)] ∧
      c.setParams place_stream_2 [] = .ok (rc, results, c') ∧ rc = 0 ∧
      c'.filters.video_mixer.get_channel_desc 0 = some
        { id := 0, x := 5, y := 6, width := 7, height := 8, alpha := 9 } ∧
      c.commanded place_stream_2 = some (s, .set_channel_desc (desc_of_params place_stream_2 s)) ∧
      s.payload_type = 0 := ⟨_, _, _, _, _, rfl, rfl, rfl, rfl, rfl, rfl, rfl⟩
  refine ⟨c, rc, results, c', hrun, hids, hset, hrc, hdesc, fun hkept => ?_⟩
  have hcalls : Meets step Conference.lossless
      (Conference.new .CT_DIRECTOR Env.still (fun _ => 255) 1)
      [.addStream Env.still [("payload", "0")], .addStream Env.still [("payload", "100")]] :=
    ⟨trivial, fun _ _ => ⟨trivial, fun _ _ => trivial⟩⟩
  have h := orderly_run hrun hcalls
  have hv := (h.named_video (run_kind hrun) (Or.inl (by decide)) hkept hcmd).1
  rw [ha] at hv
  exact absurd hv (by decide)

end zonekey_mcu.conference
