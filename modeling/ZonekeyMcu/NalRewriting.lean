-- The two functions of the FLV writer that put lengths in the place of start codes. Both
-- make a buffer that is 512 bytes longer than the data and never look at its end again.
import ZonekeyMcu.FlvTags

namespace zonekey_mcu.flv_writer

open big_endian annexb

/-! ## The function that leaves the parameter sets out -/

/-- The `while (nal_start < end)` of `avc_remove_sps_pps_nals`. -/
def avc_remove_loop (base : Nat) (data : List UInt8) (room : Nat) :
    Nat → Nat → List UInt8 → Except Fault (List UInt8)
  | fuel, nal_start, pbuf =>
    if nal_start < data.length then
      match fuel with
      | 0 => .error .neverReturns
      | fuel + 1 => do
        let nal_start ← skip_zeros (data.drop nal_start) nal_start
        let nal_end ← avc_find_startcode base data nal_start
        let nal := slice data nal_start nal_end
        let b ← byte data nal_start
        let nal_type := b &&& 0x1f
        if nal_type ≠ 7 ∧ nal_type ≠ 8 then do
          let pbuf ← put room pbuf (bytes_of 4 nal.length)
          let pbuf ← put room pbuf nal
          avc_remove_loop base data room fuel nal_end pbuf
        else avc_remove_loop base data room fuel nal_end pbuf
    else .ok pbuf

def avc_remove_sps_pps_nals (base : Nat) (data : List UInt8) : Except Fault (List UInt8) := do
  let nal_start ← avc_find_startcode base data 0
  avc_remove_loop base data (data.length + 512) data.length nal_start []

/-! ## What is kept -/

/-- A SPS or a PPS. -/
def is_parameter_set (nal : List UInt8) : Bool := nal_type nal = some 7 ∨ nal_type nal = some 8

def kept (nals : List (List UInt8)) : List (List UInt8) :=
  nals.filter fun nal => !is_parameter_set nal

def removed (nals : List (List UInt8)) : List (List UInt8) := nals.filter is_parameter_set

/-- The units with their start codes are all of the data from the first start code on. -/
theorem splits_length {data : List UInt8} {p : Nat} {nals : List (List UInt8)}
    (h : Splits data p nals) : p + (units nals).length = data.length := by
  induction h with
  | done => rfl
  | @nal p next nals _ hlt hnext _ ih =>
    have hbounds := next_bounds (Nat.le_of_lt hlt) hnext
    have hslice : (slice data (p + 3) next).length = next - (p + 3) := by
      rw [slice, List.length_take, List.length_drop]
      omega
    rw [units_cons, List.length_cons, List.length_cons, List.length_cons, List.length_append,
      hslice]
    omega

theorem length_kept_removed (nals : List (List UInt8)) :
    (units (kept nals)).length + (units (removed nals)).length = (units nals).length := by
  induction nals with
  | nil => rfl
  | cons nal nals ih =>
    unfold kept removed at ih ⊢
    rw [List.filter_cons, List.filter_cons, length_units_cons]
    cases is_parameter_set nal with
    | true =>
      simp only [Bool.not_true, Bool.false_eq_true, if_false, if_true, length_units_cons]
      omega
    | false =>
      simp only [Bool.not_false, Bool.false_eq_true, if_false, if_true, length_units_cons]
      omega

/-! ## The byte that is looked at -/

/-- The byte at the start of a unit tells its type. An empty unit is followed by the zero of
the next start code, and so it is none of the parameter sets. -/
theorem byte_of_unit {data : List UInt8} {p next : Nat} {nals : List (List UInt8)}
    (hlt : p < data.length) (hnext : Next data p next) (h : Splits data next nals) :
    ∃ b, byte data p = .ok b ∧
      (b &&& 0x1f ≠ 7 ∧ b &&& 0x1f ≠ 8 ↔ is_parameter_set (slice data p next) = false) := by
  obtain ⟨b, hb, hget⟩ := byte_read data p hlt
  refine ⟨b, hb, ?_⟩
  have hbounds := next_bounds (Nat.le_of_lt hlt) hnext
  rcases Nat.eq_or_lt_of_le hbounds.1 with rfl | hpos
  · -- the unit is empty
    have hzero : b = 0 := by
      rcases splits_head h with hend | ⟨hstart, -⟩
      · omega
      · rw [hstart.1] at hget
        exact (Option.some.inj hget).symm
    simp [hzero, slice, is_parameter_set, nal_type]
  · have hhead : (slice data p next).head? = some b := by
      rw [slice, List.head?_take, if_neg (by omega), List.head?_drop, hget]
    simp only [is_parameter_set, nal_type, hhead, Option.map_some, Option.some.injEq,
      decide_eq_false_iff_not, not_or, ne_eq]

/-! ## The loop -/

theorem kept_cons_keep {nal : List UInt8} (h : is_parameter_set nal = false)
    (nals : List (List UInt8)) : kept (nal :: nals) = nal :: kept nals := by
  simp [kept, h]

theorem kept_cons_remove {nal : List UInt8} (h : is_parameter_set nal ≠ false)
    (nals : List (List UInt8)) : kept (nal :: nals) = kept nals := by
  simp [kept, h]

/-- The units that are kept are written with their lengths, as far as the buffer reaches. -/
theorem avc_remove_loop_splits {data : List UInt8} (base room : Nat) {p : Nat}
    {nals : List (List UInt8)} (h : Splits data p nals) :
    ∀ fuel pbuf, data.length ≤ p + fuel → pbuf.length ≤ room →
      avc_remove_loop base data room fuel p pbuf =
        if pbuf.length + (prefixed (kept nals)).length ≤ room then
          .ok (pbuf ++ prefixed (kept nals))
        else .error .outOfBounds := by
  induction h with
  | done =>
    intro fuel pbuf _ hroom
    unfold avc_remove_loop
    rw [if_neg (Nat.lt_irrefl _), if_pos (by simpa [kept, prefixed] using hroom)]
    simp [kept, prefixed]
  | @nal p next nals hstart hlt hnext hrest ih =>
    intro fuel pbuf hfuel hroom
    obtain ⟨fuel, rfl⟩ : ∃ f, fuel = f + 1 := ⟨fuel - 1, by omega⟩
    have hbounds := next_bounds (Nat.le_of_lt hlt) hnext
    obtain ⟨b, hb, htype⟩ := byte_of_unit hlt hnext hrest
    unfold avc_remove_loop
    rw [if_pos (by omega)]
    dsimp only
    rw [skip_zeros_at_start hstart, ok_bind, avc_find_startcode,
      find_startcode_at base (Nat.le_of_lt hlt) hnext, ok_bind, hb, ok_bind]
    generalize slice data (p + 3) next = nal at htype ⊢
    by_cases hkeep : is_parameter_set nal = false
    · rw [if_pos (htype.mpr hkeep), kept_cons_keep hkeep]
      exact put_units nal fun pbuf hput => ih fuel pbuf (by omega) hput
    · rw [if_neg fun htypes => hkeep (htype.mp htypes), kept_cons_remove hkeep]
      exact ih fuel pbuf (by omega) hroom

/-- What is left of a frame. -/
theorem avc_remove_units {data : List UInt8} {q : Nat} {nals : List (List UInt8)}
    (hq : Next data 0 q) (h : Splits data q nals) (base : Nat) :
    avc_remove_sps_pps_nals base data =
      if (prefixed (kept nals)).length ≤ data.length + 512 then .ok (prefixed (kept nals))
      else .error .outOfBounds := by
  unfold avc_remove_sps_pps_nals avc_find_startcode
  rw [find_startcode_at base (Nat.zero_le _) hq, ok_bind,
    avc_remove_loop_splits base _ h _ _ (by omega) (Nat.zero_le _)]
  simp only [List.length_nil, Nat.zero_add, List.nil_append]

/-! ## The law -/

theorem fits_iff {α : Type} {c : Prop} [Decidable c] (out : α) :
    (∃ x, (if c then .ok out else .error .outOfBounds : Except Fault α) = .ok x) ↔ c := by
  by_cases hc : c
  · simp [hc]
  · simp [hc]

/-- Both functions stay in their buffers on data whose first start code stands at `q` if and
only if the units that are written are at most 512 more than the bytes before `q`, and for the
second function, than those and the bytes of what is removed. A unit takes one byte more in
the output than in the data. -/
theorem the_output_fits_unless_the_units_are_many (base : Nat) (data : List UInt8) :
    ∃ q nals, Next data 0 q ∧ Splits data q nals ∧
      ((∃ out, avc_parse_nal_units base data = .ok out) ↔ nals.length ≤ q + 512) ∧
      ((∃ out, avc_remove_sps_pps_nals base data = .ok out) ↔
        (kept nals).length ≤ q + (units (removed nals)).length + 512) := by
  obtain ⟨q, nals, hq, hsplits, hboth⟩ := splitters_split data
  have hlen := splits_length hsplits
  have hparts := length_kept_removed nals
  refine ⟨q, nals, hq, hsplits, ?_, ?_⟩
  · rw [(hboth base).2, fits_iff, length_prefixed_units]
    omega
  · rw [avc_remove_units hq hsplits, fits_iff, length_prefixed_units]
    omega

/-- 513 units of one byte from the front of the data on are too many for both. -/
theorem the_output_of_513_units_at_the_front_does_not_fit :
    (∀ out, avc_parse_nal_units 0 (units (List.replicate 513 [0x61])) ≠ .ok out) ∧
      ∀ out, avc_remove_sps_pps_nals 0 (units (List.replicate 513 [0x61])) ≠ .ok out := by
  have hwf : ∀ nal ∈ List.replicate 513 [(0x61 : UInt8)], annexb.WellFormed nal := by
    intro nal hnal
    obtain ⟨-, rfl⟩ := List.mem_replicate.mp hnal
    exact ⟨by decide, by decide, by decide, by decide⟩
  have hsplits := frame_splits hwf []
  rw [List.nil_append, List.length_nil] at hsplits
  have hlen := splits_length hsplits
  have hstart : Next (units (List.replicate 513 [0x61])) 0 0 := by
    rcases splits_head hsplits with hend | ⟨hstart, hlt⟩
    · rw [show 513 = 512 + 1 from rfl, List.replicate_succ, length_units_cons] at hend
      omega
    · exact .inl ⟨Nat.le_refl 0, by omega, hstart, fun r _ hr => absurd hr (Nat.not_lt_zero r)⟩
  have hkept : kept (List.replicate 513 [0x61]) = List.replicate 513 [0x61] :=
    List.filter_eq_self.mpr fun nal hnal => by
      rw [(List.mem_replicate.mp hnal).2]
      rfl
  obtain ⟨q, nals, hq, hsplits', hboth⟩ := splitters_split (units (List.replicate 513 [0x61]))
  obtain rfl := next_unique hq hstart
  obtain rfl := splits_unique hsplits' hsplits
  have hlong : ¬ (prefixed (List.replicate 513 [(0x61 : UInt8)])).length ≤
      (units (List.replicate 513 [(0x61 : UInt8)])).length + 512 := by
    rw [length_prefixed_units, List.length_replicate]
    omega
  constructor
  · rw [(hboth 0).2, if_neg hlong]
    nofun
  · rw [avc_remove_units hstart hsplits, hkept, if_neg hlong]
    nofun

end zonekey_mcu.flv_writer
