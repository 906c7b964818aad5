-- The size of a recording, as the writer counts it and as `close` records it. The metadata
-- is written with the first sound and is not counted.
import ZonekeyMcu.FlvRecording

namespace zonekey_mcu.flv_writer

open big_endian runs

/-! ## What is counted -/

/-- The size that a player reads in the metadata of a file. -/
def recorded_filesize (file : List UInt8) : Nat := value_of ((file.drop 72).take 8)

section

variable (m : Machine)

/-- The size that is patched in at the end is the size that was counted. -/
theorem close_records_size {c : Ctx} (haudio : c.audio_type_ ≠ 0) (hlen : 80 ≤ c.file_.length) :
    recorded_filesize (c.close m) = (m.of_int c.file_size_.toNat).toNat := by
  have hduration : (modifyDuration c.file_ (m.duration c.stamp_audio_)).length =
      c.file_.length := by
    unfold modifyDuration patch
    simp only [List.length_append, List.length_take, List.length_drop, length_bytes_of]
    omega
  unfold Ctx.close modifyFilesize patch recorded_filesize
  rw [if_pos haudio, List.drop_left' (by rw [List.length_take, hduration]; omega),
    List.take_left' (length_bytes_of _ _)]
  exact value_of_bytes_of_lt (UInt64.toNat_lt _)

/-- The tag of the metadata has 263 bytes. -/
theorem length_metadata_tag (a_bits a_rate a_chs a_id : Int) :
    (tag_bytes (metadata_tag m a_bits a_rate a_chs a_id)).length = 263 := by
  obtain ⟨body, hbody, hlen⟩ := metadata_encodes m 960 540 a_bits a_rate a_chs a_id
  rw [tag_bytes_length]
  unfold metadata_tag
  rw [hbody]
  dsimp only [Option.getD_some]
  omega

theorem length_aac_spec_tag (data : List UInt8) :
    (tag_bytes (aac_spec_tag m data)).length = 19 := by
  rw [tag_bytes_length]
  unfold aac_spec_tag
  rw [List.length_append, length_audio_config]
  rfl

/-- An audio frame is counted as it is written, in 32 bits. -/
theorem write_audio_counts (c : Ctx) (flags data : List UInt8) (ms : UInt32) :
    ∃ n, (c.write_audio flags data ms).file_size_ = c.file_size_ + UInt64.ofNat n ∧
      n < 4294967296 ∧ n ≤ flags.length + data.length + 15 ∧
      (flags.length + data.length < 16777216 → n = flags.length + data.length + 15) := by
  refine ⟨(UInt32.ofNat (data.length + flags.length + 11) + 4).toNat, ?_, ?_⟩
  · unfold Ctx.write_audio
    rw [UInt64.ofNat_uInt32ToNat]
    rfl
  · have hfour : UInt32.toNat 4 = 4 := rfl
    rw [UInt32.toNat_add, UInt32.toNat_ofNat', hfour]
    refine ⟨?_, ?_, ?_⟩ <;> omega

theorem length_write_audio (c : Ctx) (flags data : List UInt8) (ms : UInt32) :
    (c.write_audio flags data ms).file_.length =
      c.file_.length + (flags.length + data.length + 15) := by
  rw [write_audio_file, List.length_append, tag_bytes_length, List.length_append]

def Call.is_audio : Call → Prop
  | .save_h264 _ _ _ _ => False
  | _ => True

def Call.data : Call → List UInt8
  | .save_aac data _ => data
  | .save_speex data _ => data
  | .save_h264 _ data _ _ => data

/-- The bytes of the metadata, if they are still to be written. -/
def uncounted (c : Ctx) : Nat := if c.audio_type_ = 0 then 263 else 0

/-- What an audio call writes beside the metadata, and what it counts. -/
structure Counts (c t : Ctx) (written counted : Nat) : Prop where
  written_eq : t.file_.length = c.file_.length + uncounted c + written
  counted_eq : t.file_size_ = c.file_size_ + UInt64.ofNat counted
  counted_le : counted ≤ written
  counted_lt : counted < 8589934592
  audio : t.audio_type_ ≠ 0

/-- An audio tag behind what was written for it before, which is counted but for the
metadata. -/
theorem counts_of_write_audio {c c₁ : Ctx} {flags data : List UInt8} {ms : UInt32} {k : Nat}
    (hk : k < 4294967296) (hfile : c₁.file_.length = c.file_.length + uncounted c + k)
    (hsize : c₁.file_size_ = c.file_size_ + UInt64.ofNat k) (haudio : c₁.audio_type_ ≠ 0) :
    ∃ written counted, Counts c (c₁.write_audio flags data ms) written counted ∧
      (flags.length + data.length < 16777216 → counted = written) := by
  obtain ⟨n, hcounts, hlt, hle, hshort⟩ := write_audio_counts c₁ flags data ms
  refine ⟨k + (flags.length + data.length + 15), k + n, ⟨?_, ?_, ?_, ?_, haudio⟩, ?_⟩
  · rw [length_write_audio, hfile]
    omega
  · rw [hcounts, hsize, UInt64.add_assoc, ← UInt64.ofNat_add]
  · omega
  · omega
  · intro h
    rw [hshort h]

/-- An audio call that the other kind of audio keeps out writes nothing. -/
theorem counts_nothing {c : Ctx} (h : c.audio_type_ ≠ 0) : Counts c c 0 0 := by
  refine ⟨?_, (UInt64.add_zero _).symm, Nat.le_refl _, by decide, h⟩
  rw [uncounted, if_neg h]
  rfl

theorem save_speex_counts {c t : Ctx} {data : List UInt8} {stamp : UInt64}
    (h : c.save_speex m data stamp = .ok t) :
    ∃ written counted, Counts c t written counted ∧
      (data.length < 16777214 → counted = written) := by
  unfold Ctx.save_speex at h
  by_cases hother : c.audio_type_ ≠ 0 ∧ c.audio_type_ ≠ SPEEX
  · rw [if_pos hother] at h
    cases h
    exact ⟨0, 0, counts_nothing hother.1, fun _ => rfl⟩
  · rw [if_neg hother] at h
    have hcounts : ∃ written counted, Counts c t written counted ∧
        ([0xb6].length + data.length < 16777216 → counted = written) := by
      by_cases hfirst : c.audio_type_ = 0
      · rw [if_pos hfirst] at h
        dsimp only at h
        rw [meta_tag_adds, ok_bind] at h
        cases h
        apply counts_of_write_audio (by decide : 0 < 4294967296)
        · rw [List.length_append, length_metadata_tag, uncounted, if_pos hfirst]
        · exact (UInt64.add_zero _).symm
        · exact (by decide : SPEEX ≠ 0)
      · rw [if_neg hfirst, ok_bind] at h
        cases h
        apply counts_of_write_audio (by decide : 0 < 4294967296) _ _ hfirst
        · rw [uncounted, if_neg hfirst]
          rfl
        · exact (UInt64.add_zero _).symm
    obtain ⟨written, counted, hcounts, hshort⟩ := hcounts
    refine ⟨written, counted, hcounts, fun h => hshort ?_⟩
    rw [List.length_singleton]
    omega

theorem save_aac_counts {c t : Ctx} {data : List UInt8} {stamp : UInt64}
    (h : c.save_aac m data stamp = .ok t) :
    ∃ written counted, Counts c t written counted ∧
      (data.length < 16777214 → counted = written) := by
  unfold Ctx.save_aac at h
  by_cases hother : c.audio_type_ ≠ 0 ∧ c.audio_type_ ≠ AAC
  · rw [if_pos hother] at h
    cases h
    exact ⟨0, 0, counts_nothing hother.1, fun _ => rfl⟩
  · rw [if_neg hother] at h
    have hcounts : ∃ written counted, Counts c t written counted ∧
        ([0xaf, 1].length + (data.drop 7).length < 16777216 → counted = written) := by
      by_cases hlong : 7 ≤ data.length
      · by_cases hfirst : c.audio_type_ = 0
        · rw [if_pos hfirst, adts_values_ok m 0 hlong, ok_bind, meta_tag_adds, ok_bind] at h
          dsimp only at h
          rw [aac_spec_adds m _ hlong, ok_bind, if_neg (by omega)] at h
          cases h
          apply counts_of_write_audio (by decide : 19 < 4294967296)
          · rw [List.length_append, List.length_append, length_metadata_tag,
              length_aac_spec_tag, uncounted, if_pos hfirst]
          · rfl
          · exact (by decide : AAC ≠ 0)
        · rw [if_neg hfirst, ok_bind] at h
          dsimp only at h
          rw [if_neg (by omega)] at h
          cases h
          apply counts_of_write_audio (by decide : 0 < 4294967296) _ _ hfirst
          · rw [uncounted, if_neg hfirst]
            rfl
          · exact (UInt64.add_zero _).symm
      · exfalso
        by_cases hfirst : c.audio_type_ = 0
        · rw [if_pos hfirst] at h
          obtain ⟨adts, -, h⟩ := bind_ok h
          obtain ⟨c₁, -, h⟩ := bind_ok h
          obtain ⟨c₂, -, h⟩ := bind_ok h
          dsimp only at h
          rw [if_pos (by omega)] at h
          cases h
        · rw [if_neg hfirst, ok_bind] at h
          dsimp only at h
          rw [if_pos (by omega)] at h
          cases h
    obtain ⟨written, counted, hcounts, hshort⟩ := hcounts
    refine ⟨written, counted, hcounts, fun h => hshort ?_⟩
    rw [List.length_drop, List.length_cons, List.length_singleton]
    omega

theorem audio_call_counts {c t : Ctx} {call : Call} (haudio : call.is_audio)
    (h : c.call m call = .ok t) :
    ∃ written counted, Counts c t written counted ∧
      (call.data.length < 16777214 → counted = written) := by
  cases call with
  | save_aac => exact save_aac_counts m h
  | save_speex => exact save_speex_counts m h
  | save_h264 => exact haudio.elim

/-! ## Runs -/

/-- The size that is counted is the number of bytes in the file, and it is the size that
the metadata gets when the file is closed. -/
def SizeKept (c : Ctx) : Prop :=
  c.file_size_.toNat = c.file_.length ∧
    (c.audio_type_ ≠ 0 → recorded_filesize (c.close m) = (m.of_int c.file_.length).toNat)

/-- Before the first sound there is only the header. -/
def Silent (c : Ctx) : Prop :=
  c.audio_type_ = 0 ∧ c.file_.length = 13 ∧ c.file_size_ = 13

theorem silent_size_kept {c : Ctx} (h : Silent c) : SizeKept m c := by
  refine ⟨?_, fun haudio => absurd h.1 haudio⟩
  rw [h.2.1, h.2.2]
  rfl

theorem video_keeps_silent {c : Ctx} {call : Call} (hs : Silent c) (h : ¬ call.is_audio) :
    ∃ t, c.call m call = .ok t ∧ Silent t := by
  cases call with
  | save_aac => exact absurd trivial h
  | save_speex => exact absurd trivial h
  | save_h264 base data key stamp =>
    refine ⟨c, ?_, hs⟩
    unfold Ctx.call Ctx.save_h264
    dsimp only
    rw [if_pos hs.1]
    rfl

/-- The first sound loses the size of the metadata. -/
theorem first_audio_loses_size {c t : Ctx} {call : Call} (hs : Silent c)
    (h : c.call m call = .ok t) (haudio : call.is_audio) :
    t.file_size_.toNat ≠ t.file_.length := by
  obtain ⟨written, counted, hcounts, -⟩ := audio_call_counts m haudio h
  have hfile := hcounts.written_eq
  have hle := hcounts.counted_le
  have hlt := hcounts.counted_lt
  rw [hs.2.1, uncounted, if_pos hs.1] at hfile
  have hsize : t.file_size_.toNat = 13 + counted := by
    have hheader : UInt64.toNat 13 = 13 := rfl
    rw [hcounts.counted_eq, hs.2.2, UInt64.toNat_add, UInt64.toNat_ofNat', hheader]
    omega
  omega

/-- A recording with sound alone counts everything but its metadata, and this is the size
that `close` records. -/
theorem a_sound_recording_lacks_its_metadata {b₁ b₂ b₃ : UInt64} {calls : List Call} {t : Ctx}
    (hcalls : ∀ call ∈ calls, call.is_audio ∧ call.data.length < 16777214)
    (hrun : run (Ctx.call m) (Ctx.open b₁ b₂ b₃) calls = .ok t) (haudio : t.audio_type_ ≠ 0) :
    t.file_size_ + 263 = UInt64.ofNat t.file_.length ∧
      recorded_filesize (t.close m) = (m.of_int t.file_size_.toNat).toNat := by
  have hkeeps : ∀ c call c', Silent c ∨ c.audio_type_ ≠ 0 ∧ 80 ≤ c.file_.length ∧
      c.file_size_ + 263 = UInt64.ofNat c.file_.length →
      call.is_audio ∧ call.data.length < 16777214 → c.call m call = .ok c' →
      c'.audio_type_ ≠ 0 ∧ 80 ≤ c'.file_.length ∧
        c'.file_size_ + 263 = UInt64.ofNat c'.file_.length := by
    intro c call c' hc hcall h
    obtain ⟨written, counted, hcounts, hshort⟩ := audio_call_counts m hcall.1 h
    have hfile := hcounts.written_eq
    refine ⟨hcounts.audio, ?_, ?_⟩
    · rcases hc with hs | ⟨-, hlen, -⟩
      · rw [hs.2.1, uncounted, if_pos hs.1] at hfile
        omega
      · omega
    · rw [hcounts.counted_eq, hshort hcall.2]
      rcases hc with hs | ⟨hne, -, hsize⟩
      · rw [hfile, uncounted, if_pos hs.1, hs.2.1, hs.2.2, UInt64.ofNat_add, UInt64.add_assoc,
          UInt64.add_comm _ 263, ← UInt64.add_assoc]
        rfl
      · rw [hfile, uncounted, if_neg hne, Nat.add_zero, UInt64.ofNat_add, ← hsize,
          UInt64.add_assoc, UInt64.add_comm _ 263, ← UInt64.add_assoc]
  have hopen : Silent (Ctx.open b₁ b₂ b₃) := ⟨rfl, rfl, rfl⟩
  have hmeets : Meets (Ctx.call m)
      (fun _ call => call.is_audio ∧ call.data.length < 16777214) (Ctx.open b₁ b₂ b₃) calls :=
    meets_of_forall fun call hcall _ => hcalls call hcall
  rcases run_keeps_of_meets (I := fun c => Silent c ∨ c.audio_type_ ≠ 0 ∧ 80 ≤ c.file_.length ∧
      c.file_size_ + 263 = UInt64.ofNat c.file_.length)
    (fun c call c' hc hcall h => .inr (hkeeps c call c' hc hcall h)) (.inl hopen) hmeets hrun with
    hs | ⟨-, hlen, hsize⟩
  · exact absurd hs.1 haudio
  · exact ⟨hsize, close_records_size m haudio hlen⟩

theorem video_of_meets {c : Ctx} {calls : List Call} (hs : Silent c)
    (h : Meets (Ctx.call m) (fun _ call => ¬ call.is_audio) c calls) :
    ∀ call ∈ calls, ¬ call.is_audio := by
  induction calls generalizing c with
  | nil => exact fun _ hmem => absurd hmem List.not_mem_nil
  | cons call calls ih =>
    obtain ⟨t, ht, hsilent⟩ := video_keeps_silent m hs h.1
    intro call' hmem
    rcases List.mem_cons.mp hmem with rfl | hmem
    · exact h.1
    · exact ih hsilent (h.2 t ht) call' hmem

end

/-! ## The law -/

/-- All along a recording the counted size is the size of the file if and only if there is
no sound in it, so that nothing but the header is written. -/
theorem the_size_is_kept_until_the_first_sound (m : Machine) (b₁ b₂ b₃ : UInt64)
    (calls : List Call) :
    Along (Ctx.call m) (SizeKept m) (Ctx.open b₁ b₂ b₃) calls ↔
      ∀ call ∈ calls, ¬ call.is_audio := by
  have hopen : Silent (Ctx.open b₁ b₂ b₃) := ⟨rfl, rfl, rfl⟩
  have hmeets : Along (Ctx.call m) (SizeKept m) (Ctx.open b₁ b₂ b₃) calls ↔
      Meets (Ctx.call m) (fun _ call => ¬ call.is_audio) (Ctx.open b₁ b₂ b₃) calls := by
    apply along_iff_meets (I := Silent) (fun _ h => silent_size_kept m h)
    · intro c call hs hvideo
      exact video_keeps_silent m hs hvideo
    · intro c call t hs h hkept haudio
      exact first_audio_loses_size m hs h haudio hkept.1
    · exact hopen
  rw [hmeets]
  exact ⟨video_of_meets m hopen, fun h => meets_of_forall fun call hmem _ => h call hmem⟩

/-- One frame of sound: 31 bytes are counted of the 294 in the file. -/
theorem one_frame_of_sound_is_miscounted :
    ∃ t, (Ctx.open 0 0 0).call whole_seconds (.save_speex [1, 2] 0) = .ok t ∧
      t.file_size_ = 31 ∧ t.file_.length = 294 ∧
      ¬ Along (Ctx.call whole_seconds) (SizeKept whole_seconds) (Ctx.open 0 0 0)
        [.save_speex [1, 2] 0] := by
  have hcall : ∃ t, (Ctx.open 0 0 0).call whole_seconds (.save_speex [1, 2] 0) = .ok t ∧
      t.file_size_ = 31 ∧ t.file_.length = 294 := by
    have hfirst : (Ctx.open 0 0 0).audio_type_ = 0 := rfl
    unfold Ctx.call Ctx.save_speex
    dsimp only
    rw [if_neg (fun h => h.1 hfirst), if_pos hfirst, meta_tag_adds, ok_bind]
    refine ⟨_, rfl, rfl, ?_⟩
    rw [length_write_audio, List.length_append, length_metadata_tag]
    rfl
  obtain ⟨t, hok, hsize, hlen⟩ := hcall
  refine ⟨t, hok, hsize, hlen, ?_⟩
  rintro ⟨-, u, hu, hkept, -⟩
  rw [hok] at hu
  cases hu
  rw [hsize, hlen] at hkept
  exact absurd hkept (by decide)

end zonekey_mcu.flv_writer
