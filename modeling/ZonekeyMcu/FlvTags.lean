-- The file of a recording as a sequence of tags: what a player reads, and the tags that
-- each write of the recorder adds.
import ZonekeyMcu.FlvWriter
import ZonekeyMcu.AnnexBSplit
import ZonekeyMcu.Lib.Layers

namespace zonekey_mcu.flv_writer

open big_endian layers annexb

/-! ## Tags -/

structure Tag where
  type : UInt8
  stamp : UInt32
  payload : List UInt8

/-- A tag in a file: its head, its data and its size once more. -/
def tag_bytes (tag : Tag) : List UInt8 :=
  tag_head tag.type tag.stamp tag.payload.length ++
    (tag.payload ++ bytes_of 4 (11 + tag.payload.length))

/-- The first tag of a text, with the bytes after it. The size has to come again after
the data, as PreviousTagSize. -/
def parse_tag : List UInt8 → Option (Tag × List UInt8)
  | type :: s2 :: s1 :: s0 :: t2 :: t1 :: t0 :: ext :: _ :: _ :: _ :: rest =>
    let size := value_of [s2, s1, s0]
    let stamp := ext.toNat * 16777216 + value_of [t2, t1, t0]
    if rest.length < size + 4 then none
    else if value_of ((rest.drop size).take 4) ≠ 11 + size then none
    else some (⟨type, UInt32.ofNat stamp, rest.take size⟩, rest.drop (size + 4))
  | _ => none

def parse_tags : Nat → List UInt8 → Option (List Tag)
  | _, [] => some []
  | 0, _ :: _ => none
  | fuel + 1, bytes => do
    let (tag, rest) ← parse_tag bytes
    let tags ← parse_tags fuel rest
    return tag :: tags

/-- The tags of a file. Every tag has a byte at least, so the length is enough fuel. -/
def flv_parse (file : List UInt8) : Option (List Tag) :=
  if file.take FLVX_HEADER.length = FLVX_HEADER then
    parse_tags file.length (file.drop FLVX_HEADER.length)
  else none

/-- The length of a payload fits the three bytes of its tag. -/
def Short (tag : Tag) : Prop := tag.payload.length < 16777216

theorem bytes_of_three (v : Nat) : ∃ a b c, bytes_of 3 v = [a, b, c] := ⟨_, _, _, rfl⟩

/-- The first tag of a file is read back, with its stamp of 32 bits. -/
theorem parse_tag_bytes {tag : Tag} (h : Short tag) (rest : List UInt8) :
    parse_tag (tag_bytes tag ++ rest) = some (tag, rest) := by
  obtain ⟨type, stamp, payload⟩ := tag
  have hsize : value_of (bytes_of 3 payload.length) = payload.length := value_of_bytes_of_lt h
  have hprev : value_of (bytes_of 4 (11 + payload.length)) = 11 + payload.length :=
    value_of_bytes_of_lt (by unfold Short at h; dsimp only at h; omega)
  have hlow : value_of (bytes_of 3 stamp.toNat) = stamp.toNat % 16777216 :=
    value_of_bytes_of 3 stamp.toNat
  have hhigh : (UInt8.ofNat (stamp.toNat / 16777216)).toNat = stamp.toNat / 16777216 := by
    have hlt := stamp.toNat_lt
    rw [UInt8.toNat_ofNat']
    omega
  have hstamp : UInt32.ofNat (stamp.toNat / 16777216 * 16777216 + stamp.toNat % 16777216) =
      stamp := by
    rw [Nat.div_add_mod', UInt32.ofNat_toNat]
  have hlen : ¬ (payload ++ (bytes_of 4 (11 + payload.length) ++ rest)).length <
      payload.length + 4 := by
    rw [List.length_append, List.length_append, length_bytes_of]
    omega
  have hdrop : (payload ++ (bytes_of 4 (11 + payload.length) ++ rest)).drop
      (payload.length + 4) = rest := by
    rw [← List.append_assoc]
    exact List.drop_left' (by rw [List.length_append, length_bytes_of])
  obtain ⟨s2, s1, s0, hs⟩ := bytes_of_three payload.length
  obtain ⟨t2, t1, t0, ht⟩ := bytes_of_three stamp.toNat
  unfold tag_bytes tag_head
  rw [hs] at hsize
  rw [ht] at hlow
  simp only [hs, ht, List.cons_append, List.nil_append, List.append_assoc]
  unfold parse_tag
  dsimp only
  rw [hsize, if_neg hlen, List.drop_left, List.take_left' (length_bytes_of _ _), hprev,
    if_neg (not_not.mpr rfl), hhigh, hlow, hstamp, List.take_left, hdrop]

/-- The tags of a file, one behind the other. -/
def tags_bytes (tags : List Tag) : List UInt8 := tags.flatMap tag_bytes

theorem tag_bytes_length (tag : Tag) : (tag_bytes tag).length = tag.payload.length + 15 := by
  unfold tag_bytes tag_head
  simp only [List.length_cons, List.length_append, length_bytes_of, List.length_nil]
  omega

theorem parse_tags_bytes {tags : List Tag} (h : ∀ tag ∈ tags, Short tag) :
    ∀ fuel, (tags_bytes tags).length ≤ fuel → parse_tags fuel (tags_bytes tags) = some tags := by
  induction tags with
  | nil =>
    intro fuel _
    cases fuel <;> rfl
  | cons tag tags ih =>
    intro fuel hfuel
    have hcons : tags_bytes (tag :: tags) = tag_bytes tag ++ tags_bytes tags := List.flatMap_cons
    have hlen := tag_bytes_length tag
    rw [hcons] at hfuel ⊢
    rw [List.length_append] at hfuel
    obtain ⟨fuel, rfl⟩ : ∃ f, fuel = f + 1 := ⟨fuel - 1, by omega⟩
    have htag := parse_tag_bytes (h tag List.mem_cons_self) (tags_bytes tags)
    have hrest := ih (fun tag htag => h tag (List.mem_cons_of_mem _ htag)) fuel (by omega)
    cases hbytes : tag_bytes tag ++ tags_bytes tags with
    | nil =>
      have hnil := congrArg List.length hbytes
      rw [List.length_append, List.length_nil] at hnil
      omega
    | cons b bytes =>
      rw [hbytes] at htag
      simp only [parse_tags, htag, hrest, Option.bind_eq_bind, Option.bind_some]
      rfl

/-- A file of short tags behind the header reads as these tags. -/
theorem flv_parse_tags {tags : List Tag} (h : ∀ tag ∈ tags, Short tag) :
    flv_parse (FLVX_HEADER ++ tags_bytes tags) = some tags := by
  unfold flv_parse
  rw [List.take_left, if_pos rfl, List.drop_left]
  apply parse_tags_bytes h
  rw [List.length_append]
  omega

theorem tags_bytes_append (tags tags' : List Tag) :
    tags_bytes (tags ++ tags') = tags_bytes tags ++ tags_bytes tags' := List.flatMap_append

theorem tags_bytes_one (tag : Tag) : tags_bytes [tag] = tag_bytes tag := by
  simp [tags_bytes]

/-! ## The units of a video frame -/

/-- The units of a frame, as the H.264 source takes them out of it. -/
def nal_units (data : List UInt8) : List (List UInt8) :=
  match annexb2queue 0 data with
  | .ok nals => nals
  | .error _ => []

theorem last_unit_ne {data : List UInt8} {p : Nat} {nals : List (List UInt8)}
    (h : Splits data p nals) : nals.getLast? ≠ some [] := by
  induction h with
  | done => simp
  | @nal p next nals _ hlt hnext hrest ih =>
    cases hrest with
    | done =>
      -- the data goes on behind a start code that was found
      have hslice : (slice data (p + 3) data.length).length = data.length - (p + 3) := by
        rw [slice, List.length_take, List.length_drop, Nat.min_self]
      intro hlast
      rw [List.getLast?_singleton, Option.some.injEq] at hlast
      rw [hlast, List.length_nil] at hslice
      omega
    | nal _ _ _ _ => rwa [List.getLast?_cons_cons]

/-- What the FLV writer makes of a frame. -/
theorem parse_nal_units (data : List UInt8) :
    (nal_units data).getLast? ≠ some [] ∧
      ∀ base, avc_parse_nal_units base data =
        if (prefixed (nal_units data)).length ≤ data.length + 512 then
          .ok (prefixed (nal_units data))
        else .error .outOfBounds := by
  obtain ⟨q, nals, -, hsplits, hboth⟩ := splitters_split data
  have hnals : nal_units data = nals := by
    unfold nal_units
    rw [(hboth 0).1]
  rw [hnals]
  exact ⟨last_unit_ne hsplits, fun base => (hboth base).2⟩

def nal_type (nal : List UInt8) : Option UInt8 := nal.head?.map (· &&& 0x1f)

/-- The last unit of a type. -/
def last_of_type (type : UInt8) (nals : List (List UInt8)) : Option (List UInt8) :=
  (nals.filter fun nal => nal_type nal = some type).getLast?

theorem last_of_type_cons (type : UInt8) (nal : List UInt8) (nals : List (List UInt8)) :
    last_of_type type (nal :: nals) =
      (last_of_type type nals).or (if nal_type nal = some type then some nal else none) := by
  unfold last_of_type
  simpa only [top, decide_eq_true_eq] using
    top_cons (fun nal => decide (nal_type nal = some type)) nal nals

/-- A pointer to a unit in the parsed frame. -/
def Points (ptr : NalPtr) : Option (List UInt8) → Prop
  | none => ptr = none
  | some nal => ∃ back, ptr = some (nal ++ back, nal.length)

/-- What the loop over the parsed frame takes for a unit of the type. The byte behind the
length of an empty unit is the high byte of the next length. -/
def taken_for (type : UInt8) : List (List UInt8) → Bool
  | (b :: _) :: _ => b &&& 0x1f = type
  | [] :: next :: _ => UInt8.ofNat (next.length / 16777216) &&& 0x1f = type
  | _ => false

/-- The last pointer to such a unit. -/
def last_taken (type : UInt8) : List (List UInt8) → NalPtr → NalPtr
  | [], ptr => ptr
  | nal :: nals, ptr =>
    last_taken type nals
      (if taken_for type (nal :: nals) then some (nal ++ prefixed nals, nal.length) else ptr)

/-- The byte behind the length of a unit. -/
theorem type_byte {nal : List UInt8} {nals : List (List UInt8)}
    (hlast : (nal :: nals).getLast? ≠ some []) (bytes : List UInt8) (hbytes : bytes.length = 4) :
    ∃ b, byte (bytes ++ (nal ++ prefixed nals)) 4 = .ok b ∧
      ∀ type, b &&& 0x1f = type ↔ taken_for type (nal :: nals) = true := by
  have hget : (bytes ++ (nal ++ prefixed nals))[4]? = (nal ++ prefixed nals)[0]? := by
    rw [List.getElem?_append_right (by omega), hbytes]
  unfold byte
  rw [hget]
  cases nal with
  | cons h body => exact ⟨h, rfl, fun type => by simp [taken_for]⟩
  | nil =>
    cases nals with
    | nil => exact absurd rfl hlast
    | cons nal nals =>
      refine ⟨UInt8.ofNat (nal.length / 256 ^ 3), ?_, fun type => ?_⟩
      · rw [prefixed_cons, bytes_of]
        rfl
      · simp [taken_for]

theorem getLast_tail {nal : List UInt8} {nals : List (List UInt8)}
    (h : (nal :: nals).getLast? ≠ some []) : nals.getLast? ≠ some [] := by
  cases nals with
  | nil => simp
  | cons nal' nals => rwa [List.getLast?_cons_cons] at h

/-- The loop over the parsed frame gives the last units that it takes for a SPS and a PPS. -/
theorem spec_loop_taken {nals : List (List UInt8)}
    (hlen : ∀ nal ∈ nals, nal.length < 4294967296) (hlast : nals.getLast? ≠ some []) {fuel : Nat}
    (hfuel : (prefixed nals).length ≤ fuel) (sps pps : NalPtr) :
    spec_loop fuel (prefixed nals) sps pps =
      .ok (last_taken 7 nals sps, last_taken 8 nals pps) := by
  induction nals generalizing fuel sps pps with
  | nil => cases fuel <;> rfl
  | cons nal nals ih =>
    have hfour : ∃ a b c d, bytes_of 4 nal.length = [a, b, c, d] := ⟨_, _, _, _, rfl⟩
    obtain ⟨a, b, c, d, habcd⟩ := hfour
    have hsize : value_of [a, b, c, d] = nal.length := by
      rw [← habcd]
      exact value_of_bytes_of_lt (hlen nal List.mem_cons_self)
    obtain ⟨b4, hb4, htype⟩ := type_byte hlast [a, b, c, d] rfl
    rw [prefixed_cons, habcd] at hfuel ⊢
    rw [List.length_append, List.length_append] at hfuel
    obtain ⟨fuel, rfl⟩ : ∃ f, fuel = f + 1 := ⟨fuel - 1, by simp at hfuel; omega⟩
    have hdrop : ([a, b, c, d] ++ (nal ++ prefixed nals)).drop (nal.length + 4) =
        prefixed nals := by
      rw [← List.append_assoc]
      exact List.drop_left' (by simp)
    have hless : (prefixed nals).length ≤ fuel := by
      simp only [List.length_cons, List.length_nil] at hfuel
      omega
    have hbyte : ∀ x y z w rest, byte (x :: y :: z :: w :: rest) 0 = .ok x ∧
        byte (x :: y :: z :: w :: rest) 1 = .ok y ∧ byte (x :: y :: z :: w :: rest) 2 = .ok z ∧
        byte (x :: y :: z :: w :: rest) 3 = .ok w := fun _ _ _ _ _ => ⟨rfl, rfl, rfl, rfl⟩
    obtain ⟨e0, e1, e2, e3⟩ := hbyte a b c d (nal ++ prefixed nals)
    have hnext := ih (fun nal hnal => hlen nal (List.mem_cons_of_mem _ hnal))
      (getLast_tail hlast) hless
    simp only [List.cons_append, List.nil_append] at hb4 hdrop ⊢
    rw [spec_loop]
    · rw [e0, ok_bind, e1, ok_bind, e2, ok_bind, e3, ok_bind, hb4, ok_bind, hsize, hdrop, hnext,
        last_taken, last_taken]
      simp only [htype, List.drop_succ_cons, List.drop_zero]
    · simp

/-- Without a unit of 16 MB the loop takes the units for what they are. -/
theorem taken_for_type (nal : List UInt8) {nals : List (List UInt8)}
    (hlen : ∀ nal ∈ nals, nal.length < 16777216) {type : UInt8} (htype : type ≠ 0) :
    taken_for type (nal :: nals) = true ↔ nal_type nal = some type := by
  match nal, nals with
  | b :: body, _ => simp [taken_for, nal_type]
  | [], [] => simp [taken_for, nal_type]
  | [], next :: nals =>
    have hnext := hlen next List.mem_cons_self
    simp [taken_for, nal_type, Nat.div_eq_of_lt hnext, htype.symm]

theorem last_taken_points {nals : List (List UInt8)} (hlen : ∀ nal ∈ nals, nal.length < 16777216)
    {type : UInt8} (htype : type ≠ 0) {ptr : NalPtr} {o : Option (List UInt8)}
    (h : Points ptr o) : Points (last_taken type nals ptr) ((last_of_type type nals).or o) := by
  induction nals generalizing ptr o with
  | nil => exact h
  | cons nal nals ih =>
    have hrest : ∀ nal ∈ nals, nal.length < 16777216 :=
      fun nal hnal => hlen nal (List.mem_cons_of_mem _ hnal)
    have htaken := taken_for_type nal hrest htype
    rw [last_of_type_cons, Option.or_assoc]
    apply ih hrest
    by_cases hnal : nal_type nal = some type
    · rw [if_pos hnal, if_pos (htaken.mpr hnal)]
      exact ⟨prefixed nals, rfl⟩
    · rw [if_neg hnal, if_neg fun h' => hnal (htaken.mp h'), Option.none_or]
      exact h

/-- The loop over the parsed frame finds the last SPS and the last PPS. -/
theorem spec_loop_finds {nals : List (List UInt8)} (hlen : ∀ nal ∈ nals, nal.length < 16777216)
    (hlast : nals.getLast? ≠ some []) {fuel : Nat} (hfuel : (prefixed nals).length ≤ fuel) :
    ∃ sps' pps', spec_loop fuel (prefixed nals) none none = .ok (sps', pps') ∧
      Points sps' (last_of_type 7 nals) ∧ Points pps' (last_of_type 8 nals) := by
  have hnull : Points none none := rfl
  have h₇ := last_taken_points hlen (show (7 : UInt8) ≠ 0 by decide) hnull
  have h₈ := last_taken_points hlen (show (8 : UInt8) ≠ 0 by decide) hnull
  rw [Option.or_none] at h₇ h₈
  exact ⟨_, _, spec_loop_taken (fun nal hnal => by have := hlen nal hnal; omega) hlast hfuel
    none none, h₇, h₈⟩

/-- The decoder configuration of a SPS and a PPS. -/
def avc_config (sps pps : List UInt8) : List UInt8 :=
  1 :: ((sps.drop 1).take 3 ++ (0xff :: 0xe1 :: (bytes_of 2 sps.length ++
    (sps ++ (1 :: (bytes_of 2 pps.length ++ pps))))))

theorem length_avc_config {sps : List UInt8} (h : 4 ≤ sps.length) (pps : List UInt8) :
    (avc_config sps pps).length = 11 + sps.length + pps.length := by
  unfold avc_config
  simp only [List.length_cons, List.length_append, length_bytes_of, List.length_take,
    List.length_drop]
  omega

theorem h264_extra_config {sps pps : List UInt8} {ptr ptr' : NalPtr} (hs : Points ptr (some sps))
    (hp : Points ptr' (some pps)) (h4 : 4 ≤ sps.length) (hfits : sps.length + pps.length ≤ 97) :
    h264_extra ptr ptr' = .ok (avc_config sps pps) := by
  obtain ⟨back, rfl⟩ := hs
  obtain ⟨back', rfl⟩ := hp
  have hroom : ¬ 128 < 8 + sps.length + 3 + pps.length := by omega
  unfold h264_extra avc_config
  simp only [Option.getD_some, List.take_left, if_neg hroom]
  match sps, h4 with
  | s0 :: s1 :: s2 :: s3 :: sps, _ => rfl

/-- A key frame with a SPS and a PPS that fit the buffers. -/
def HasSpec (nals : List (List UInt8)) : Prop :=
  ∃ sps pps, last_of_type 7 nals = some sps ∧ last_of_type 8 nals = some pps ∧
    4 ≤ sps.length ∧ sps.length + pps.length ≤ 97

/-! ## What a call stands for -/

section

variable (m : Machine)

def adts_of (i : Nat) (data : List UInt8) : Adts :=
  match adts_values m i data with
  | .ok adts => adts
  | .error _ => ⟨0, 0, 0, 0⟩

def metadata_tag (a_bits a_rate a_chs a_id : Int) : Tag :=
  ⟨0x12, 0, (metadata_body m 960 540 a_bits a_rate a_chs a_id).getD []⟩

def aac_spec_tag (data : List UInt8) : Tag :=
  ⟨0x08, 0, [0xaf, 0] ++ buildAudioConfigExt m (adts_of m 4 data).samples (adts_of m 4 data).chs⟩

def avc_spec_tag (nals : List (List UInt8)) : Tag :=
  ⟨9, 0, [0x17, 0, 0, 0, 0] ++
    avc_config ((last_of_type 7 nals).getD []) ((last_of_type 8 nals).getD [])⟩

/-- The first key frame sets the origin of the video stamps. -/
def Ctx.with_spec (c : Ctx) (stamp : UInt64) : Ctx :=
  if c.video_spec_ = false then
    { c with
      video_spec_ := true
      stamp_begin_video_ := stamp
      stamp_av_origin_diff := m.of_int c.stamp_audio_.toNat }
  else c

/-- The tags that a call stands for. A call with the other kind of audio stands for none,
and so does a video frame before the first sound or before the first key frame. -/
def stands_for (c : Ctx) : Call → List Tag
  | .save_aac data _ =>
    if c.audio_type_ ≠ 0 ∧ c.audio_type_ ≠ AAC then []
    else
      let adts := adts_of m 0 data
      (if c.audio_type_ = 0 then
        [metadata_tag m adts.bits adts.samples adts.chs AAC, aac_spec_tag m data] else []) ++
        [⟨0x08, c.stamp_audio_, [0xaf, 1] ++ data.drop 7⟩]
  | .save_speex data _ =>
    if c.audio_type_ ≠ 0 ∧ c.audio_type_ ≠ SPEEX then []
    else
      (if c.audio_type_ = 0 then [metadata_tag m 16 16000 1 SPEEX] else []) ++
        [⟨0x08, c.stamp_audio_, [0xb6] ++ data⟩]
  | .save_h264 _ data key stamp =>
    if c.audio_type_ = 0 ∨ c.video_spec_ = false ∧ key = false then []
    else
      (if c.video_spec_ = false then [avc_spec_tag (nal_units data)] else []) ++
        [⟨9, ((c.with_spec m stamp).next_stamp_video m stamp).stamp_video_,
          [if key then 0x17 else 0x27, 1, 0, 0, 0] ++ prefixed (nal_units data)⟩]

end

end zonekey_mcu.flv_writer
