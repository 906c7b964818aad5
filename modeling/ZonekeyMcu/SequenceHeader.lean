-- The AVC sequence header that the FLV writer makes of a key frame: when it is written, and
-- what the two buffers of 128 bytes and the missing tests for a SPS and a PPS leave out.
import ZonekeyMcu.NalRewriting

namespace zonekey_mcu.flv_writer

open big_endian annexb

/-! ## The tag -/

/-- The record with the profile, the compatibility and the level, one SPS and one PPS. -/
def decoder_config (profile sps pps : List UInt8) : List UInt8 :=
  1 :: (profile ++ (0xff :: 0xe1 :: (bytes_of 2 sps.length ++
    (sps ++ (1 :: (bytes_of 2 pps.length ++ pps))))))

def header_tag (profile sps pps : List UInt8) : Tag :=
  ⟨9, 0, [0x17, 0, 0, 0, 0] ++ decoder_config profile sps pps⟩

/-- The call added a tag with the last SPS and the last PPS of the units. -/
def AddsHeader (c c' : Ctx) (nals : List (List UInt8)) : Prop :=
  ∃ profile sps pps, profile.length = 3 ∧ last_of_type 7 nals = some sps ∧
    last_of_type 8 nals = some pps ∧ c'.file_ = c.file_ ++ tag_bytes (header_tag profile sps pps)

section

variable {profile sps pps profile' sps' pps' : List UInt8}

theorem length_decoder_config (h : profile.length = 3) (sps pps : List UInt8) :
    (decoder_config profile sps pps).length = 11 + sps.length + pps.length := by
  unfold decoder_config
  simp only [List.length_cons, List.length_append, length_bytes_of, h]
  omega

/-- A short record tells its SPS and its PPS. -/
theorem decoder_config_inj (h : profile.length = 3) (h' : profile'.length = 3)
    (hshort : sps.length + pps.length ≤ 97)
    (heq : decoder_config profile sps pps = decoder_config profile' sps' pps') :
    sps = sps' ∧ pps = pps' := by
  have hlen := congrArg List.length heq
  rw [length_decoder_config h, length_decoder_config h'] at hlen
  obtain ⟨-, htail⟩ := List.append_inj (List.cons.inj heq).2 (h.trans h'.symm)
  obtain ⟨-, htail⟩ := List.cons.inj htail
  obtain ⟨-, htail⟩ := List.cons.inj htail
  obtain ⟨hsize, htail⟩ := List.append_inj htail (by rw [length_bytes_of, length_bytes_of])
  have hsps : sps.length = sps'.length := by
    have hvalue := congrArg value_of hsize
    rwa [value_of_bytes_of_lt (by omega), value_of_bytes_of_lt (by omega)] at hvalue
  obtain ⟨hs, htail⟩ := List.append_inj htail hsps
  obtain ⟨-, htail⟩ := List.cons.inj htail
  exact ⟨hs, (List.append_inj htail (by rw [length_bytes_of, length_bytes_of])).2⟩

theorem tag_bytes_payload {tag tag' : Tag} (h : tag_bytes tag = tag_bytes tag') :
    tag.payload = tag'.payload := by
  have hlen := congrArg List.length h
  rw [tag_bytes_length, tag_bytes_length] at hlen
  have hpayload : tag.payload.length = tag'.payload.length := by omega
  have hheads : ∀ t : Tag, (tag_head t.type t.stamp t.payload.length).length = 11 := fun _ => rfl
  have htail := (List.append_inj h (by rw [hheads, hheads])).2
  exact (List.append_inj htail hpayload).1

/-! ## The buffers -/

/-- A SPS is read up to its fourth byte, into the bytes behind it if it is shorter. -/
theorem h264_extra_read (sps back pps back' : List UInt8) :
    h264_extra (some (sps ++ back, sps.length)) (some (pps ++ back', pps.length)) =
      if 4 ≤ (sps ++ back).length ∧ sps.length + pps.length ≤ 117 then
        .ok (decoder_config (((sps ++ back).drop 1).take 3) sps pps)
      else .error .outOfBounds := by
  unfold h264_extra decoder_config
  simp only [Option.getD_some, List.take_left]
  generalize sps ++ back = text
  match text with
  | [] => rfl
  | [_] => rfl
  | [_, _] => rfl
  | [_, _, _] => rfl
  | s0 :: s1 :: s2 :: s3 :: text =>
    by_cases hroom : sps.length + pps.length ≤ 117
    · rw [if_pos ⟨by simp, hroom⟩]
      have hfits : ¬ 128 < 8 + sps.length + 3 + pps.length := by omega
      simp only [if_neg hfits]
      rfl
    · rw [if_neg fun h => hroom h.2]
      have hover : 128 < 8 + sps.length + 3 + pps.length := by omega
      simp only [if_pos hover]
      rfl

/-- What is written is the tag. -/
theorem header_written (c : Ctx) (profile sps pps : List UInt8) :
    (c.flv_write_data (tag_head 9 0 (5 + (decoder_config profile sps pps).length) ++
        ([0x17, 0, 0, 0, 0] ++ (decoder_config profile sps pps ++
          bytes_of 4 (16 + (decoder_config profile sps pps).length))))).file_ =
      c.file_ ++ tag_bytes (header_tag profile sps pps) := by
  unfold tag_bytes header_tag Ctx.flv_write_data
  simp only [List.length_append, List.length_cons, List.length_nil, List.append_assoc,
    Nat.zero_add]
  congr 5
  omega

/-- The call with the units that the loop has found. -/
theorem write_h264_spec_adds (c : Ctx) (base : Nat) {data out back back' : List UInt8}
    (hparse : avc_parse_nal_units base data = .ok out)
    (hloop : spec_loop out.length out none none =
      .ok (some (sps ++ back, sps.length), some (pps ++ back', pps.length)))
    (file : List UInt8) :
    (∃ c', c.write_h264_spec base data = .ok c' ∧ c'.file_ = file) ↔
      4 ≤ (sps ++ back).length ∧ sps.length + pps.length ≤ 97 ∧
        file = c.file_ ++ tag_bytes (header_tag (((sps ++ back).drop 1).take 3) sps pps) := by
  unfold Ctx.write_h264_spec
  rw [hparse, ok_bind, hloop, ok_bind]
  dsimp only
  rw [h264_extra_read]
  by_cases hread : 4 ≤ (sps ++ back).length ∧ sps.length + pps.length ≤ 117
  · have hprofile : (((sps ++ back).drop 1).take 3).length = 3 := by
      rw [List.length_take, List.length_drop]
      omega
    have hlen := length_decoder_config hprofile sps pps
    rw [if_pos hread, ok_bind]
    by_cases hfits : sps.length + pps.length ≤ 97
    · rw [if_neg (by omega), ← header_written]
      constructor
      · rintro ⟨c', hc', rfl⟩
        obtain rfl := Except.ok.inj hc'
        exact ⟨hread.1, hfits, rfl⟩
      · rintro ⟨-, -, rfl⟩
        exact ⟨_, rfl, rfl⟩
    · rw [if_pos (by omega)]
      exact iff_of_false (not_exists_error _ _) fun h => hfits h.2.1
  · rw [if_neg hread, error_bind]
    exact iff_of_false (not_exists_error _ _) fun h => hread ⟨h.1, by omega⟩

end

/-! ## The units that the loop finds -/

/-- The loop takes no unit for one of the type. -/
def NoneTaken (type : UInt8) (nals : List (List UInt8)) : Prop :=
  ∀ rest, rest <:+ nals → taken_for type rest = false

/-- The last unit of the type, with the units behind it. -/
structure LastUnit (type : UInt8) (nals : List (List UInt8)) (nal : List UInt8)
    (behind : List (List UInt8)) : Prop where
  split : ∃ before, nals = before ++ nal :: behind
  type_eq : nal_type nal = some type
  none_taken : NoneTaken type behind

section

variable {type : UInt8} {nal : List UInt8} {nals behind : List (List UInt8)}

theorem noneTaken_cons :
    NoneTaken type (nal :: nals) ↔ taken_for type (nal :: nals) = false ∧ NoneTaken type nals := by
  unfold NoneTaken
  simp only [List.suffix_cons_iff, forall_eq_or_imp]

theorem taken_of_type (h : nal_type nal = some type) (nals : List (List UInt8)) :
    taken_for type (nal :: nals) = true := by
  cases nal with
  | nil => cases h
  | cons b body => simpa [taken_for, nal_type] using h

theorem type_of_taken (hne : nal ≠ []) (h : taken_for type (nal :: nals) = true) :
    nal_type nal = some type := by
  cases nal with
  | nil => exact absurd rfl hne
  | cons b body => simpa [taken_for, nal_type] using h

theorem last_of_type_none (h : NoneTaken type nals) : last_of_type type nals = none := by
  induction nals with
  | nil => rfl
  | cons nal nals ih =>
    obtain ⟨hnal, hrest⟩ := noneTaken_cons.mp h
    have htype : nal_type nal ≠ some type := fun h' => by
      rw [taken_of_type h'] at hnal
      cases hnal
    rw [last_of_type_cons, ih hrest, if_neg htype]
    rfl

theorem last_of_type_last (h : LastUnit type nals nal behind) :
    last_of_type type nals = some nal := by
  obtain ⟨⟨before, rfl⟩, htype, hnone⟩ := h
  induction before with
  | nil => rw [List.nil_append, last_of_type_cons, last_of_type_none hnone, if_pos htype]; rfl
  | cons nal' before ih => rw [List.cons_append, last_of_type_cons, ih, Option.some_or]

theorem last_taken_none (h : NoneTaken type nals) (ptr : NalPtr) :
    last_taken type nals ptr = ptr := by
  induction nals generalizing ptr with
  | nil => rfl
  | cons nal nals ih =>
    obtain ⟨hnal, hrest⟩ := noneTaken_cons.mp h
    rw [last_taken, hnal, ih hrest]
    rfl

theorem last_taken_at (before : List (List UInt8)) (htaken : taken_for type (nal :: behind) = true)
    (hnone : NoneTaken type behind) (ptr : NalPtr) :
    last_taken type (before ++ nal :: behind) ptr = some (nal ++ prefixed behind, nal.length) := by
  induction before generalizing ptr with
  | nil => rw [List.nil_append, last_taken, htaken, last_taken_none hnone]; rfl
  | cons nal' before ih => rw [List.cons_append, last_taken, ih]

theorem last_taken_last (h : LastUnit type nals nal behind) (ptr : NalPtr) :
    last_taken type nals ptr = some (nal ++ prefixed behind, nal.length) := by
  obtain ⟨before, rfl⟩ := h.split
  exact last_taken_at before (taken_of_type h.type_eq behind) h.none_taken ptr

/-- The loop takes no unit, or there is a last one that it takes. -/
theorem none_or_last_taken (type : UInt8) (nals : List (List UInt8)) :
    NoneTaken type nals ∨ ∃ before nal behind, nals = before ++ nal :: behind ∧
      taken_for type (nal :: behind) = true ∧ NoneTaken type behind := by
  induction nals with
  | nil =>
    refine .inl fun rest hrest => ?_
    obtain rfl := List.suffix_nil.mp hrest
    rfl
  | cons nal nals ih =>
    rcases ih with hnone | ⟨before, nal', behind, rfl, htaken, hnone⟩
    · cases hnal : taken_for type (nal :: nals) with
      | false => exact .inl (noneTaken_cons.mpr ⟨hnal, hnone⟩)
      | true => exact .inr ⟨[], nal, nals, rfl, hnal, hnone⟩
    · exact .inr ⟨nal :: before, nal', behind, rfl, htaken, hnone⟩

/-- Where there is a unit of the type, the loop points to the last one that it takes. -/
theorem last_taken_some (h : last_of_type type nals = some nal) :
    ∃ found behind, last_taken type nals none = some (found ++ prefixed behind, found.length) ∧
      (found ≠ [] → LastUnit type nals found behind) := by
  rcases none_or_last_taken type nals with hnone | ⟨before, found, behind, rfl, htaken, hnone⟩
  · rw [last_of_type_none hnone] at h
    cases h
  · exact ⟨found, behind, last_taken_at before htaken hnone none,
      fun hne => ⟨⟨before, rfl⟩, type_of_taken hne htaken, hnone⟩⟩

theorem nal_type_ne (h : nal_type nal = some type) : nal ≠ [] := by
  rintro rfl
  cases h

theorem last_of_type_ne (h : last_of_type type nals = some nal) : nal ≠ [] := by
  have hmem := List.mem_of_getLast? h
  exact nal_type_ne (of_decide_eq_true (List.mem_filter.mp hmem).2)

end

/-! ## The law -/

/-- The last SPS and the last PPS are the units that the loop takes last. With their head they
fit the buffers, and the SPS has the four bytes that are read of it, or a unit behind it. -/
def HeaderFits (nals : List (List UInt8)) : Prop :=
  ∃ sps behind pps behind', LastUnit 7 nals sps behind ∧ LastUnit 8 nals pps behind' ∧
    (4 ≤ sps.length ∨ behind ≠ []) ∧ sps.length + pps.length ≤ 97

theorem four_bytes_iff {sps : List UInt8} {behind : List (List UInt8)} (hne : sps ≠ []) :
    4 ≤ (sps ++ prefixed behind).length ↔ 4 ≤ sps.length ∨ behind ≠ [] := by
  have hpos := List.length_pos_iff.mpr hne
  rw [List.length_append]
  cases behind with
  | nil => simp [prefixed]
  | cons nal behind =>
    rw [prefixed_cons, List.length_append, length_bytes_of]
    simp only [ne_eq, reduceCtorEq, not_false_eq_true, or_true, iff_true]
    omega

theorem header_iff (c : Ctx) (base : Nat) {data : List UInt8} {nals : List (List UInt8)}
    (hlen : ∀ nal ∈ nals, nal.length < 4294967296) (hlast : nals.getLast? ≠ some [])
    (hparse : avc_parse_nal_units base data = .ok (prefixed nals)) :
    (∃ c', c.write_h264_spec base data = .ok c' ∧ AddsHeader c c' nals) ↔ HeaderFits nals := by
  have hloop := spec_loop_taken hlen hlast (Nat.le_refl _) none none
  constructor
  · rintro ⟨c', hc', profile, sps, pps, hprofile, hsps, hpps, hfile⟩
    obtain ⟨found, behind, h₇, hfound⟩ := last_taken_some hsps
    obtain ⟨found', behind', h₈, hfound'⟩ := last_taken_some hpps
    rw [h₇, h₈] at hloop
    obtain ⟨hfour, hfits, hbytes⟩ :=
      (write_h264_spec_adds c base hparse hloop c'.file_).mp ⟨c', hc', rfl⟩
    -- the record that is written tells which units were found
    rw [hfile] at hbytes
    have hpayload := tag_bytes_payload (List.append_cancel_left hbytes)
    have hthree : (((found ++ prefixed behind).drop 1).take 3).length = 3 := by
      rw [List.length_take, List.length_drop]
      omega
    obtain ⟨rfl, rfl⟩ := decoder_config_inj hthree hprofile hfits
      (List.append_cancel_left hpayload).symm
    have hne := last_of_type_ne hsps
    exact ⟨_, behind, _, behind', hfound hne, hfound' (last_of_type_ne hpps),
      (four_bytes_iff hne).mp hfour, hfits⟩
  · rintro ⟨sps, behind, pps, behind', hsps, hpps, hfour, hfits⟩
    rw [last_taken_last hsps, last_taken_last hpps] at hloop
    have hread := (four_bytes_iff (nal_type_ne hsps.type_eq)).mpr hfour
    obtain ⟨c', hc', hfile⟩ := (write_h264_spec_adds c base hparse hloop _).mpr
      ⟨hread, hfits, rfl⟩
    refine ⟨c', hc', _, sps, pps, ?_, last_of_type_last hsps, last_of_type_last hpps, hfile⟩
    rw [List.length_take, List.length_drop]
    omega

/-- On data whose size is an `int`, the call returns and has added a tag with the last SPS and
the last PPS if and only if the units fit the buffer of `avc_parse_nal_units` and the parameter
sets are there and fit the buffers of the tag. -/
theorem the_header_is_written_when_the_parameter_sets_fit (c : Ctx) (base : Nat)
    {data : List UInt8} (hsize : data.length < 2147483648) :
    ∃ q nals, Next data 0 q ∧ Splits data q nals ∧
      ((∃ c', c.write_h264_spec base data = .ok c' ∧ AddsHeader c c' nals) ↔
        nals.length ≤ q + 512 ∧ HeaderFits nals) := by
  obtain ⟨q, nals, hq, hsplits, hboth⟩ := splitters_split data
  have hdata := splits_length hsplits
  have hlen : ∀ nal ∈ nals, nal.length < 4294967296 := by
    intro nal hnal
    have hle := length_le_units hnal
    omega
  refine ⟨q, nals, hq, hsplits, ?_⟩
  have hparse := (hboth base).2
  have hroom : (prefixed nals).length ≤ data.length + 512 ↔ nals.length ≤ q + 512 := by
    rw [length_prefixed_units]
    omega
  by_cases hfits : nals.length ≤ q + 512
  · rw [if_pos (hroom.mpr hfits)] at hparse
    rw [header_iff c base hlen (last_unit_ne hsplits) hparse]
    exact (and_iff_right hfits).symm
  · rw [if_neg fun h => hfits (hroom.mp h)] at hparse
    unfold Ctx.write_h264_spec
    rw [hparse, error_bind]
    exact iff_of_false (not_exists_error _ _) fun h => hfits h.1

theorem the_header_is_written_when_the_parameter_sets_fit_example :
    ∃ q nals, Next [0, 0, 1, 0x67, 66, 0, 30, 0, 0, 1, 0x68, 4] 0 q ∧
      Splits [0, 0, 1, 0x67, 66, 0, 30, 0, 0, 1, 0x68, 4] q nals ∧
      ((∃ c', (Ctx.open 0 0 0).write_h264_spec 0 [0, 0, 1, 0x67, 66, 0, 30, 0, 0, 1, 0x68, 4] =
            .ok c' ∧ AddsHeader (Ctx.open 0 0 0) c' nals) ↔
        nals.length ≤ q + 512 ∧ HeaderFits nals) :=
  the_header_is_written_when_the_parameter_sets_fit (Ctx.open 0 0 0) 0
    (show [0, 0, 1, 0x67, 66, 0, 30, 0, 0, 1, 0x68, (4 : UInt8)].length < 2147483648 by simp)

/-- A key frame without parameter sets: a null pointer is read. -/
theorem a_key_frame_without_sps_reads_a_null_pointer :
    (Ctx.open 0 0 0).write_h264_spec 0 [0, 0, 0, 1, 0x65, 0x88] = .error .outOfBounds := by
  have hparse : avc_parse_nal_units 0 [0, 0, 0, 1, 0x65, 0x88] = .ok [0, 0, 0, 2, 0x65, 0x88] := by
    decide +kernel
  have hloop : spec_loop [0, 0, 0, 2, 0x65, (0x88 : UInt8)].length [0, 0, 0, 2, 0x65, 0x88]
      none none = .ok (none, none) := by
    decide +kernel
  unfold Ctx.write_h264_spec
  rw [hparse, ok_bind, hloop]
  rfl

end zonekey_mcu.flv_writer
