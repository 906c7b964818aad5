-- The law of a recording: the file is the header and the tags that the calls stand for,
-- as long as no video frame overruns the buffer of its parsed units.
import ZonekeyMcu.FlvTags
import ZonekeyMcu.Lib.Runs

namespace zonekey_mcu.flv_writer

open big_endian annexb runs

/-! ## The tags that are written -/

section

variable (m : Machine)

/-- The metadata has an encoding, and always the same length. -/
theorem metadata_encodes (width height a_bits a_rate a_chs a_id : Int) :
    ∃ body, metadata_body m width height a_bits a_rate a_chs a_id = some body ∧
      body.length = 248 := by
  have hbody : ∃ body, amf.encode_properties (metadata m width height a_bits a_rate a_chs a_id) =
      some body ∧ body.length = 227 := by
    unfold metadata
    simp only [amf.encode_properties, amf.atom_encode, Option.bind_eq_bind, Option.bind_some,
      Option.some.injEq, exists_eq_left', List.length_append, List.length_cons, List.length_nil,
      amf.length_text_bytes, length_bytes_of]
    decide
  obtain ⟨body, hbody, hlen⟩ := hbody
  unfold metadata_body
  simp only [amf.atom_encode, hbody, Option.bind_eq_bind, Option.bind_some]
  refine ⟨_, rfl, ?_⟩
  simp only [List.length_append, List.length_cons, List.length_nil, amf.length_text_bytes,
    length_bytes_of, hlen]
  decide

theorem meta_tag_adds (c : Ctx) (a_bits a_rate a_chs a_id : Int) :
    c.flv_write_meta_tag m 960 540 a_bits a_rate a_chs a_id =
      .ok { c with file_ := c.file_ ++ tag_bytes (metadata_tag m a_bits a_rate a_chs a_id) } := by
  obtain ⟨body, hbody, -⟩ := metadata_encodes m 960 540 a_bits a_rate a_chs a_id
  unfold Ctx.flv_write_meta_tag flv_make_metadata_tag metadata_tag tag_bytes
  rw [hbody]
  dsimp only
  rw [Option.getD_some, Nat.add_comm 11]
  rfl

/-- A frame with its header of 7 bytes can be read. -/
theorem adts_values_ok (i : Nat) {data : List UInt8} (h : 7 ≤ data.length) :
    adts_values m i data = .ok (adts_of m i data) := by
  have hparse : ∃ adts, aac_parse_adts data = .ok adts := by
    match data, h with
    | p0 :: p1 :: p2 :: p3 :: p4 :: p5 :: p6 :: rest, _ =>
      unfold aac_parse_adts
      by_cases h0 : p0 = 0xff
      · by_cases h1 : p1 = 0xf1
        · simp [byte, h0, h1]
        · simp [byte, h0, h1]
      · simp [byte, h0]
  obtain ⟨adts, hadts⟩ := hparse
  have hvalues : ∃ adts, adts_values m i data = .ok adts := by
    unfold adts_values
    rw [hadts]
    cases adts <;> exact ⟨_, rfl⟩
  obtain ⟨adts, hvalues⟩ := hvalues
  unfold adts_of
  rw [hvalues]

theorem length_audio_config (samplerate chs : Int) :
    (buildAudioConfigExt m samplerate chs).length = 2 := by
  unfold buildAudioConfigExt
  split <;> rfl

theorem aac_spec_adds (c : Ctx) {data : List UInt8} (h : 7 ≤ data.length) :
    c.write_aac_spec m data =
      .ok { c with
        file_ := c.file_ ++ tag_bytes (aac_spec_tag m data)
        file_size_ := c.file_size_ + (13 + 2 + 4) } := by
  have hextra := length_audio_config m (adts_of m 4 data).samples (adts_of m 4 data).chs
  unfold Ctx.write_aac_spec Ctx.flv_write_data aac_spec_tag tag_bytes
  rw [adts_values_ok m 4 h, ok_bind]
  simp only [List.length_append, hextra, List.length_cons, List.length_nil, List.append_assoc]
  rfl

theorem write_audio_file (c : Ctx) (flags data : List UInt8) (ms : UInt32) :
    (c.write_audio flags data ms).file_ =
      c.file_ ++ tag_bytes ⟨0x08, c.stamp_audio_, flags ++ data⟩ := by
  unfold Ctx.write_audio Ctx.flv_write_data tag_bytes
  simp only [List.append_assoc, List.length_append, Nat.add_comm flags.length]
  rw [Nat.add_comm 11]

theorem save_aac_adds (c : Ctx) {data : List UInt8} (stamp : UInt64) (h : 7 ≤ data.length) :
    ∃ c', c.save_aac m data stamp = .ok c' ∧
      c'.file_ = c.file_ ++ tags_bytes (stands_for m c (.save_aac data stamp)) := by
  unfold Ctx.save_aac
  dsimp only [stands_for]
  by_cases hother : c.audio_type_ ≠ 0 ∧ c.audio_type_ ≠ AAC
  · rw [if_pos hother, if_pos hother]
    exact ⟨c, rfl, (List.append_nil _).symm⟩
  · rw [if_neg hother, if_neg hother]
    by_cases hfirst : c.audio_type_ = 0
    · rw [if_pos hfirst, adts_values_ok m 0 h, ok_bind, meta_tag_adds, ok_bind]
      rw [aac_spec_adds m _ h, ok_bind, if_neg (by omega), if_pos hfirst]
      refine ⟨_, rfl, ?_⟩
      rw [write_audio_file]
      simp only [tags_bytes, List.flatMap_cons, List.flatMap_nil, List.append_assoc,
        List.cons_append, List.nil_append, List.append_nil]
    · rw [if_neg hfirst, ok_bind, if_neg (by omega)]
      refine ⟨_, rfl, ?_⟩
      rw [write_audio_file, if_neg hfirst, List.nil_append, tags_bytes_one]

theorem save_speex_adds (c : Ctx) (data : List UInt8) (stamp : UInt64) :
    ∃ c', c.save_speex m data stamp = .ok c' ∧
      c'.file_ = c.file_ ++ tags_bytes (stands_for m c (.save_speex data stamp)) := by
  unfold Ctx.save_speex
  dsimp only [stands_for]
  by_cases hother : c.audio_type_ ≠ 0 ∧ c.audio_type_ ≠ SPEEX
  · rw [if_pos hother, if_pos hother]
    exact ⟨c, rfl, (List.append_nil _).symm⟩
  · rw [if_neg hother, if_neg hother]
    by_cases hfirst : c.audio_type_ = 0
    · rw [if_pos hfirst, meta_tag_adds, ok_bind, if_pos hfirst]
      refine ⟨_, rfl, ?_⟩
      rw [write_audio_file]
      simp only [tags_bytes, List.flatMap_cons, List.flatMap_nil, List.append_assoc,
        List.cons_append, List.nil_append, List.append_nil]
    · rw [if_neg hfirst, ok_bind, if_neg hfirst]
      refine ⟨_, rfl, ?_⟩
      rw [write_audio_file, List.nil_append, tags_bytes_one]

/-- The parsed units of a frame fit into their buffer. -/
def Fits (data : List UInt8) : Prop :=
  (prefixed (nal_units data)).length ≤ data.length + 512

theorem parse_fits {data : List UInt8} (h : Fits data) (base : Nat) :
    avc_parse_nal_units base data = .ok (prefixed (nal_units data)) := by
  rw [(parse_nal_units data).2 base]
  exact if_pos h

theorem fits_of_parse {data out : List UInt8} {base : Nat}
    (h : avc_parse_nal_units base data = .ok out) : Fits data := by
  rw [(parse_nal_units data).2 base] at h
  split at h
  · assumption
  · cases h

theorem length_unit_le {nal : List UInt8} {nals : List (List UInt8)} (h : nal ∈ nals) :
    nal.length ≤ (prefixed nals).length := by
  rw [length_prefixed_units]
  exact Nat.le_add_right_of_le (length_le_units h)

theorem h264_spec_adds (c : Ctx) (base : Nat) {data : List UInt8} (hfits : Fits data)
    (hshort : (prefixed (nal_units data)).length < 16777216) (hspec : HasSpec (nal_units data)) :
    ∃ size, c.write_h264_spec base data =
      .ok { c with
        file_ := c.file_ ++ tag_bytes (avc_spec_tag (nal_units data))
        file_size_ := size } := by
  obtain ⟨sps, pps, hsps, hpps, h4, hle⟩ := hspec
  have hlen : ∀ nal ∈ nal_units data, nal.length < 16777216 :=
    fun nal hnal => Nat.lt_of_le_of_lt (length_unit_le hnal) hshort
  obtain ⟨ptr, ptr', hloop, hp, hp'⟩ := spec_loop_finds hlen (parse_nal_units data).1
    (Nat.le_refl _)
  rw [hsps] at hp
  rw [hpps] at hp'
  have hextra := h264_extra_config hp hp' h4 hle
  have hsize := length_avc_config h4 pps
  unfold Ctx.write_h264_spec
  rw [parse_fits hfits, ok_bind, hloop, ok_bind]
  dsimp only
  rw [hextra, ok_bind, if_neg (by omega)]
  refine ⟨c.file_size_ + UInt64.ofNat (16 + (avc_config sps pps).length + 4), ?_⟩
  unfold avc_spec_tag tag_bytes Ctx.flv_write_data
  simp only [hsps, hpps, Option.getD_some, List.length_append, List.length_cons, List.length_nil,
    List.append_assoc, pure_eq_ok, Nat.zero_add]
  congr 7
  omega

theorem write_video_adds (c : Ctx) (base : Nat) {data : List UInt8} (key : Bool)
    (hfits : Fits data) :
    ∃ c', c.write_video base data key = .ok c' ∧
      c'.file_ = c.file_ ++ tag_bytes ⟨9, c.stamp_video_,
        [if key then 0x17 else 0x27, 1, 0, 0, 0] ++ prefixed (nal_units data)⟩ := by
  unfold Ctx.write_video tag_bytes
  rw [parse_fits hfits, ok_bind]
  refine ⟨_, rfl, ?_⟩
  simp only [Ctx.flv_write_data, List.append_assoc, List.length_append, List.length_cons,
    List.length_nil, Nat.zero_add]
  rw [Nat.add_comm _ 5, Nat.add_comm _ 11]

theorem next_stamp_keeps (c : Ctx) (stamp : UInt64) :
    (c.next_stamp_video m stamp).adjust_av_delta.file_ = c.file_ ∧
      (c.next_stamp_video m stamp).adjust_av_delta.stamp_video_ =
        (c.next_stamp_video m stamp).stamp_video_ := by
  unfold Ctx.adjust_av_delta
  split
  · split
    · split <;> exact ⟨rfl, rfl⟩
    · split
      · split <;> exact ⟨rfl, rfl⟩
      · exact ⟨rfl, rfl⟩
  · exact ⟨rfl, rfl⟩

/-- The video frame is taken: there was sound, and this or an earlier frame is a key
frame. -/
def Taken (c : Ctx) (key : Bool) : Prop :=
  c.audio_type_ ≠ 0 ∧ (c.video_spec_ = true ∨ key = true)

theorem save_h264_adds (c : Ctx) (base : Nat) {data : List UInt8} {key : Bool} (stamp : UInt64)
    (hfits : Taken c key → Fits data)
    (hshort : Taken c key → (prefixed (nal_units data)).length < 16777216)
    (hspec : Taken c key → c.video_spec_ = false → HasSpec (nal_units data)) :
    ∃ c', c.save_h264 m base data key stamp = .ok c' ∧
      c'.file_ = c.file_ ++ tags_bytes (stands_for m c (.save_h264 base data key stamp)) := by
  unfold Ctx.save_h264
  dsimp only [stands_for]
  by_cases haudio : c.audio_type_ = 0
  · rw [if_pos haudio, if_pos (.inl haudio)]
    exact ⟨c, rfl, (List.append_nil _).symm⟩
  · rw [if_neg haudio]
    by_cases hwaits : c.video_spec_ = false ∧ key = false
    · have hnot : ¬ (c.video_spec_ = false ∧ key = true) := by
        rw [hwaits.2]
        simp
      rw [if_neg hnot, ok_bind, if_pos hwaits.1, if_pos (.inr hwaits)]
      exact ⟨c, rfl, (List.append_nil _).symm⟩
    · have hnone : ¬ (c.audio_type_ = 0 ∨ c.video_spec_ = false ∧ key = false) :=
        fun h => h.elim haudio hwaits
      have htaken : Taken c key := by
        refine ⟨haudio, ?_⟩
        cases hv : c.video_spec_
        · cases hk : key
          · exact absurd ⟨hv, hk⟩ hwaits
          · exact .inr rfl
        · exact .inl rfl
      rw [if_neg hnone]
      by_cases hfirst : c.video_spec_ = false
      · have hkey : c.video_spec_ = false ∧ key = true :=
          ⟨hfirst, htaken.2.resolve_left (by rw [hfirst]; exact Bool.false_ne_true)⟩
        obtain ⟨size, hok⟩ :=
          h264_spec_adds c base (hfits htaken) (hshort htaken) (hspec htaken hfirst)
        have hwith : c.with_spec m stamp = { c with
            video_spec_ := true
            stamp_begin_video_ := stamp
            stamp_av_origin_diff := m.of_int c.stamp_audio_.toNat } := if_pos hfirst
        unfold Ctx.start_video
        rw [if_pos hkey, hok, ok_bind, pure_eq_ok, ok_bind, if_neg Bool.noConfusion, if_pos hfirst,
          hwith]
        obtain ⟨c', hvideo, hfile⟩ := write_video_adds
          ((({ c with
            file_ := c.file_ ++ tag_bytes (avc_spec_tag (nal_units data))
            file_size_ := size
            video_spec_ := true
            stamp_begin_video_ := stamp
            stamp_av_origin_diff := m.of_int c.stamp_audio_.toNat } : Ctx).next_stamp_video m
              stamp).adjust_av_delta) base key (hfits htaken)
        refine ⟨c', hvideo, ?_⟩
        rw [hfile, (next_stamp_keeps m _ stamp).1, (next_stamp_keeps m _ stamp).2,
          tags_bytes_append, tags_bytes_one, tags_bytes_one, List.append_assoc]
        rfl
      · have hwith : c.with_spec m stamp = c := if_neg hfirst
        have hnot : ¬ (c.video_spec_ = false ∧ key = true) := fun h => hfirst h.1
        rw [if_neg hnot, ok_bind, if_neg hfirst, if_neg hfirst, hwith]
        obtain ⟨c', hvideo, hfile⟩ := write_video_adds
          ((c.next_stamp_video m stamp).adjust_av_delta) base key (hfits htaken)
        refine ⟨c', hvideo, ?_⟩
        rw [hfile, (next_stamp_keeps m c stamp).1, (next_stamp_keeps m c stamp).2,
          List.nil_append, tags_bytes_one]

/-- A frame that was saved fits. -/
theorem fits_of_save (c : Ctx) {base : Nat} {data : List UInt8} {key : Bool} {stamp : UInt64}
    {c' : Ctx} (htaken : Taken c key) (h : c.save_h264 m base data key stamp = .ok c') :
    Fits data := by
  unfold Ctx.save_h264 at h
  rw [if_neg htaken.1] at h
  by_cases hfirst : c.video_spec_ = false ∧ key = true
  · rw [if_pos hfirst] at h
    obtain ⟨c₁, hstart, -⟩ := bind_ok h
    obtain ⟨c₂, hspec, -⟩ := bind_ok hstart
    obtain ⟨out, hout, -⟩ := bind_ok hspec
    exact fits_of_parse hout
  · have hv : ¬ c.video_spec_ = false := by
      intro hv
      rcases htaken.2 with hv' | hk
      · rw [hv] at hv'
        cases hv'
      · exact hfirst ⟨hv, hk⟩
    rw [if_neg hfirst, ok_bind] at h
    dsimp only at h
    rw [if_neg hv] at h
    obtain ⟨out, hout, -⟩ := bind_ok h
    exact fits_of_parse hout

end

/-! ## Runs -/

/-- The writer, with the tags that its calls stood for. -/
structure Recording where
  ctx : Ctx
  tags : List Tag

def Recording.open (b₁ b₂ b₃ : UInt64) : Recording := ⟨Ctx.open b₁ b₂ b₃, []⟩

section

variable (m : Machine)

def Recording.step (s : Recording) (call : Call) : Except Fault Recording := do
  let ctx ← s.ctx.call m call
  return ⟨ctx, s.tags ++ stands_for m s.ctx call⟩

/-- The calls of a recording: each AAC frame has its header, each payload has a length of
three bytes, and the first key frame has a SPS and a PPS that fit. -/
def Valid (s : Recording) (call : Call) : Prop :=
  (∀ tag ∈ stands_for m s.ctx call, Short tag) ∧
    match call with
    | .save_aac data _ => 7 ≤ data.length
    | .save_speex _ _ => True
    | .save_h264 _ data key _ =>
      Taken s.ctx key → s.ctx.video_spec_ = false → HasSpec (nal_units data)

/-- A video frame that is taken fits into the buffer of its parsed units. -/
def Room (s : Recording) : Call → Prop
  | .save_h264 _ data key _ => Taken s.ctx key → Fits data
  | _ => True

/-- The file is the header and the tags, and reads as the tags. -/
def WellFormed (s : Recording) : Prop :=
  s.ctx.file_ = FLVX_HEADER ++ tags_bytes s.tags ∧ flv_parse s.ctx.file_ = some s.tags

/-- What a step keeps: the file has the tags, which are short. -/
def Recorded (s : Recording) : Prop :=
  s.ctx.file_ = FLVX_HEADER ++ tags_bytes s.tags ∧ ∀ tag ∈ s.tags, Short tag

theorem recorded_well_formed {s : Recording} (h : Recorded s) : WellFormed s := by
  refine ⟨h.1, ?_⟩
  rw [h.1]
  exact flv_parse_tags h.2

/-- The payload of a frame that is taken is short, and so are its parsed units. -/
theorem short_units {c : Ctx} {base : Nat} {data : List UInt8} {key : Bool} {stamp : UInt64}
    (htaken : Taken c key)
    (h : ∀ tag ∈ stands_for m c (.save_h264 base data key stamp), Short tag) :
    (prefixed (nal_units data)).length < 16777216 := by
  have hnone : ¬ (c.audio_type_ = 0 ∨ c.video_spec_ = false ∧ key = false) := by
    rintro (ha | ⟨hv, hk⟩)
    · exact htaken.1 ha
    · rcases htaken.2 with hv' | hk'
      · rw [hv] at hv'
        cases hv'
      · rw [hk] at hk'
        cases hk'
  dsimp only [stands_for] at h
  rw [if_neg hnone] at h
  have hshort := h _ (List.mem_append_right _ List.mem_cons_self)
  unfold Short at hshort
  dsimp only at hshort
  rw [List.length_append] at hshort
  omega

theorem call_adds {s : Recording} {call : Call} (hv : Valid m s call) (hr : Room s call) :
    ∃ c', s.ctx.call m call = .ok c' ∧
      c'.file_ = s.ctx.file_ ++ tags_bytes (stands_for m s.ctx call) := by
  cases call with
  | save_aac data stamp => exact save_aac_adds m s.ctx stamp hv.2
  | save_speex data stamp => exact save_speex_adds m s.ctx data stamp
  | save_h264 base data key stamp =>
    exact save_h264_adds m s.ctx base stamp hr (fun ht => short_units m ht hv.1) hv.2

theorem step_keeps_recorded {s : Recording} {call : Call} (hs : Recorded s) (hv : Valid m s call)
    (hr : Room s call) : ∃ t, s.step m call = .ok t ∧ Recorded t := by
  obtain ⟨c', hok, hfile⟩ := call_adds m hv hr
  refine ⟨⟨c', s.tags ++ stands_for m s.ctx call⟩, ?_, ?_, ?_⟩
  · unfold Recording.step
    rw [hok]
    rfl
  · rw [hfile, hs.1, tags_bytes_append, List.append_assoc]
  · intro tag htag
    rcases List.mem_append.mp htag with htag | htag
    · exact hs.2 tag htag
    · exact hv.1 tag htag

theorem step_had_room {s t : Recording} {call : Call} (h : s.step m call = .ok t) :
    Room s call := by
  obtain ⟨c', hok, -⟩ := bind_ok h
  cases call with
  | save_aac => trivial
  | save_speex => trivial
  | save_h264 base data key stamp => exact fun htaken => fits_of_save m s.ctx htaken hok

/-- The tag of a payload, behind the tag that a first one of its kind gets. -/
theorem forall_behind_first {other first : Prop} [Decidable other] [Decidable first]
    {P : Tag → Prop} {head tag : Tag} (hhead : P head) (htag : P tag) :
    ∀ t ∈ if other then [] else (if first then [head] else []) ++ [tag], P t := by
  intro t ht
  split at ht
  · exact absurd ht List.not_mem_nil
  · rcases List.mem_append.mp ht with ht | ht
    · split at ht
      · obtain rfl := List.mem_singleton.mp ht
        exact hhead
      · exact absurd ht List.not_mem_nil
    · obtain rfl := List.mem_singleton.mp ht
      exact htag

/-- Sound with a short payload is valid in every state. -/
theorem valid_speex (s : Recording) {data : List UInt8} {stamp : UInt64}
    (h : data.length < 16777215) : Valid m s (.save_speex data stamp) := by
  refine ⟨?_, trivial⟩
  obtain ⟨body, hbody, hlen⟩ := metadata_encodes m 960 540 16 16000 1 SPEEX
  apply forall_behind_first
  · unfold Short metadata_tag
    rw [hbody]
    dsimp only [Option.getD_some]
    omega
  · unfold Short
    rw [List.length_append, List.length_singleton]
    omega

/-- A frame with a SPS and a PPS, and with short units, is valid in every state. -/
theorem valid_h264 (s : Recording) {base : Nat} {data : List UInt8} {key : Bool}
    {stamp : UInt64} (hspec : HasSpec (nal_units data))
    (hshort : (prefixed (nal_units data)).length < 16777211) :
    Valid m s (.save_h264 base data key stamp) := by
  refine ⟨?_, fun _ _ => hspec⟩
  obtain ⟨sps, pps, hsps, hpps, h4, hle⟩ := hspec
  have hconfig := length_avc_config h4 pps
  apply forall_behind_first
  · unfold Short avc_spec_tag
    rw [hsps, hpps, Option.getD_some, Option.getD_some, List.length_append, hconfig]
    simp only [List.length_cons, List.length_nil]
    omega
  · unfold Short
    rw [List.length_append]
    simp only [List.length_cons, List.length_nil]
    omega

end

/-! ## Whole numbers as doubles -/

/-- A whole number as a `double`, rounded to the nearest one, to the even one in a tie. -/
def double_of_int (n : Int) : UInt64 :=
  if n = 0 then 0
  else
    let v := n.natAbs
    let e := v.log2
    let shift := 2 ^ (e - 52)
    let up := shift < 2 * (v % shift) ∨ 2 * (v % shift) = shift ∧ v / shift % 2 = 1
    let fraction := if e ≤ 52 then v * 2 ^ (52 - e) else v / shift + if up then 1 else 0
    UInt64.ofNat ((if n < 0 then 2 ^ 63 else 0) + (e + 1022) * 2 ^ 52 + fraction)

/-- The whole part of a `double` that is not negative. -/
def nat_of_double (d : UInt64) : Nat :=
  let e := d.toNat / 2 ^ 52
  let fraction := 2 ^ 52 + d.toNat % 2 ^ 52
  if e < 1023 then 0
  else if e ≤ 1075 then fraction / 2 ^ (1075 - e)
  else fraction * 2 ^ (e - 1075)

example : double_of_int 960 = 0x408e000000000000 := by decide

/-- A machine as it computes with stamps of whole seconds, and with zeros in memory. -/
def whole_seconds : Machine where
  of_int := double_of_int
  video_stamp stamp begin_ diff :=
    UInt32.ofNat (1000 * (nat_of_double stamp - nat_of_double begin_) + nat_of_double diff)
  duration ms := double_of_int (ms.toNat / 1000)
  unset_int _ := 0
  unset_byte _ := 0

/-! ## The law -/

/-- All along a recording the file is the header and the tags that the calls stood for, and
a player reads exactly these tags, if and only if every video frame that is taken fits into
512 bytes more than its data once each unit has a length of four bytes. -/
theorem a_recording_is_well_formed_while_its_frames_fit (m : Machine) (b₁ b₂ b₃ : UInt64)
    (calls : List Call)
    (hv : Meets (Recording.step m) (Valid m) (Recording.open b₁ b₂ b₃) calls) :
    Along (Recording.step m) WellFormed (Recording.open b₁ b₂ b₃) calls ↔
      Meets (Recording.step m) Room (Recording.open b₁ b₂ b₃) calls := by
  have hopen : Recorded (Recording.open b₁ b₂ b₃) :=
    ⟨(List.append_nil _).symm, fun _ h => absurd h List.not_mem_nil⟩
  exact along_iff_meets_of_meets (fun _ h => recorded_well_formed h)
    (fun _ _ hs hv hr => step_keeps_recorded m hs hv hr)
    (fun _ _ _ _ _ h _ => step_had_room m h) calls hopen hv

/-- Two units that start a key frame, and as many others of one byte as are wanted. -/
def key_units (n : Nat) : List (List UInt8) :=
  [0x67, 0x42, 0xe0, 0x1e] :: [0x68, 0xce] :: List.replicate n [0x65]

theorem key_units_well_formed (n : Nat) : ∀ nal ∈ key_units n, annexb.WellFormed nal := by
  intro nal hnal
  rcases List.mem_cons.mp hnal with rfl | hnal
  · exact ⟨by decide, by decide, by decide, by decide⟩
  · rcases List.mem_cons.mp hnal with rfl | hnal
    · exact ⟨by decide, by decide, by decide, by decide⟩
    · obtain ⟨-, rfl⟩ := List.mem_replicate.mp hnal
      exact ⟨by decide, by decide, by decide, by decide⟩

theorem key_units_has_spec (n : Nat) : HasSpec (key_units n) := by
  have hlast : ∀ type, nal_type [0x65] ≠ some type →
      last_of_type type (key_units n) =
        last_of_type type [[0x67, 0x42, 0xe0, 0x1e], [0x68, 0xce]] := by
    intro type htype
    have hrest : (List.replicate n ([0x65] : List UInt8)).filter
        (fun nal => nal_type nal = some type) = [] := by
      rw [List.filter_eq_nil_iff]
      intro nal hnal
      obtain ⟨-, rfl⟩ := List.mem_replicate.mp hnal
      simpa using htype
    unfold last_of_type key_units
    rw [List.filter_cons, List.filter_cons, hrest, List.filter_cons, List.filter_cons,
      List.filter_nil]
  exact ⟨[0x67, 0x42, 0xe0, 0x1e], [0x68, 0xce], hlast 7 (by decide), hlast 8 (by decide),
    by decide, by decide⟩

theorem length_prefixed_replicate (n : Nat) (nal : List UInt8) :
    (prefixed (List.replicate n nal)).length = n * (4 + nal.length) := by
  induction n with
  | zero => simp [prefixed]
  | succ n ih =>
    rw [List.replicate_succ, prefixed_cons, List.length_append, List.length_append, ih,
      length_bytes_of, Nat.succ_mul]
    omega

/-- The frame of these units: the writer takes it with 511 others, and no more. -/
theorem key_frame_splits (n base : Nat) :
    nal_units (0 :: units (key_units n)) = key_units n ∧
      avc_parse_nal_units base (0 :: units (key_units n)) =
        if n + 2 ≤ 513 then .ok (prefixed (key_units n)) else .error .outOfBounds := by
  have hne : key_units n ≠ [] := List.cons_ne_nil _ _
  have hlen : (key_units n).length = n + 2 := by
    unfold key_units
    rw [List.length_cons, List.length_cons, List.length_replicate]
  constructor
  · unfold nal_units
    rw [(frame_of_units_splits hne (key_units_well_formed n) 0).1]
  · rw [(frame_of_units_splits hne (key_units_well_formed n) base).2, hlen]

theorem key_frame_valid (m : Machine) (s : Recording) {n : Nat} (hn : n ≤ 1000) :
    Valid m s (.save_h264 0 (0 :: units (key_units n)) true 0) := by
  have hnals := (key_frame_splits n 0).1
  apply valid_h264
  · rw [hnals]
    exact key_units_has_spec n
  · have hrest := length_prefixed_replicate n [0x65]
    rw [hnals]
    unfold key_units
    rw [prefixed_cons, prefixed_cons]
    simp only [List.length_append, length_bytes_of, hrest, List.length_cons, List.length_nil]
    omega

/-- A frame of sound and a key frame. -/
theorem a_recording_is_well_formed_while_its_frames_fit_example :
    Along (Recording.step whole_seconds) WellFormed (Recording.open 0 0 0)
        [.save_speex [1, 2] 0, .save_h264 0 (0 :: units (key_units 1)) true 0] ↔
      Meets (Recording.step whole_seconds) Room (Recording.open 0 0 0)
        [.save_speex [1, 2] 0, .save_h264 0 (0 :: units (key_units 1)) true 0] := by
  refine a_recording_is_well_formed_while_its_frames_fit whole_seconds 0 0 0 _
    (meets_of_forall ?_)
  intro call hcall s
  simp only [List.mem_cons, List.not_mem_nil, or_false] at hcall
  rcases hcall with rfl | rfl
  · exact valid_speex _ s (by decide)
  · exact key_frame_valid _ s (by decide)

/-- A key frame with 512 slices of one byte is written over the end of the buffer. -/
theorem a_key_frame_of_514_units_is_not_written :
    Meets (Recording.step whole_seconds) (Valid whole_seconds) (Recording.open 0 0 0)
        [.save_speex [1, 2] 0, .save_h264 0 (0 :: units (key_units 512)) true 0] ∧
      run (Recording.step whole_seconds) (Recording.open 0 0 0)
        [.save_speex [1, 2] 0, .save_h264 0 (0 :: units (key_units 512)) true 0] =
          .error .outOfBounds ∧
      ¬ Along (Recording.step whole_seconds) WellFormed (Recording.open 0 0 0)
        [.save_speex [1, 2] 0, .save_h264 0 (0 :: units (key_units 512)) true 0] := by
  have hparse := (key_frame_splits 512 0).2
  rw [if_neg (by decide)] at hparse
  obtain ⟨c, hspeex, hc⟩ : ∃ c, (Ctx.open 0 0 0).save_speex whole_seconds [1, 2] 0 = .ok c ∧
      c.audio_type_ ≠ 0 ∧ c.video_spec_ = false := by
    unfold Ctx.save_speex
    have hfirst : (Ctx.open 0 0 0).audio_type_ = 0 := rfl
    rw [if_neg (fun h => h.1 hfirst), if_pos hfirst]
    dsimp only
    rw [meta_tag_adds, ok_bind]
    exact ⟨_, rfl, by decide, rfl⟩
  have hfirst : ∃ s, (Recording.open 0 0 0).step whole_seconds (.save_speex [1, 2] 0) = .ok s ∧
      s.ctx = c := by
    have hcall : (Ctx.open 0 0 0).call whole_seconds (.save_speex [1, 2] 0) = .ok c := hspeex
    unfold Recording.step Recording.open
    dsimp only
    rw [hcall]
    exact ⟨_, rfl, rfl⟩
  obtain ⟨s, hs, rfl⟩ := hfirst
  have hsecond : s.step whole_seconds (.save_h264 0 (0 :: units (key_units 512)) true 0) =
      .error .outOfBounds := by
    unfold Recording.step Ctx.call Ctx.save_h264
    dsimp only
    rw [if_neg hc.1, if_pos ⟨hc.2, rfl⟩]
    unfold Ctx.start_video Ctx.write_h264_spec
    rw [hparse]
    rfl
  refine ⟨meets_of_forall ?_, ?_, ?_⟩
  · intro call hcall s
    simp only [List.mem_cons, List.not_mem_nil, or_false] at hcall
    rcases hcall with rfl | rfl
    · exact valid_speex _ s (by decide)
    · exact key_frame_valid _ s (by decide)
  · rw [run_cons_ok _ hs]
    unfold run
    rw [hsecond]
  · rintro ⟨-, t, ht, -, u, hu, -⟩
    rw [hs] at ht
    cases ht
    rw [hsecond] at hu
    cases hu

end zonekey_mcu.flv_writer
