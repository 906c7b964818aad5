-- A frame that the sink puts together and the two splitters take apart. Both find every
-- NAL unit. The FLV writer writes a length of four bytes before each unit into a buffer
-- that is 512 bytes longer than the frame, which is not enough for many units.
import ZonekeyMcu.AnnexBSearch

namespace zonekey_mcu.annexb

open big_endian

/-! ## The units of a frame -/

/-- The units between the start codes, from the start code at a place on. -/
inductive Splits (data : List UInt8) : Nat → List (List UInt8) → Prop
  | done : Splits data data.length []
  | nal {p next : Nat} {nals : List (List UInt8)} :
      StartAt data p → p + 3 < data.length → Next data (p + 3) next →
      Splits data next nals → Splits data p (slice data (p + 3) next :: nals)

/-- Each unit behind its length. -/
def prefixed (nals : List (List UInt8)) : List UInt8 :=
  nals.flatMap fun nal => bytes_of 4 nal.length ++ nal

section

variable {data : List UInt8}

theorem next_bounds {p q : Nat} (hp : p ≤ data.length) (h : Next data p q) :
    p ≤ q ∧ q ≤ data.length := by
  rcases h with ⟨hq, hlt, -⟩ | ⟨-, rfl⟩
  · exact ⟨hq, by omega⟩
  · exact ⟨hp, Nat.le_refl _⟩

theorem splits_head {p : Nat} {nals : List (List UInt8)} (h : Splits data p nals) :
    p = data.length ∨ StartAt data p ∧ p + 3 < data.length := by
  cases h with
  | done => exact .inl rfl
  | nal hstart hlt _ _ => exact .inr ⟨hstart, hlt⟩

/-- Every data splits, from its first start code on. -/
theorem data_splits {p q : Nat} (hp : p ≤ data.length) (h : Next data p q) :
    ∃ nals, Splits data q nals := by
  induction hn : data.length - q using Nat.strong_induction_on generalizing p q with
  | _ n ih =>
    subst hn
    rcases h with ⟨hq, hlt, hstart, -⟩ | ⟨-, rfl⟩
    · have hle : q + 3 ≤ data.length := by omega
      obtain ⟨next, -, hnext⟩ := find_startcode_next 0 hle
      have hbounds := next_bounds hle hnext
      obtain ⟨nals, hnals⟩ := ih (data.length - next) (by omega) hle hnext rfl
      exact ⟨_, .nal hstart (by omega) hnext hnals⟩
    · exact ⟨[], .done⟩

theorem splits_unique {p : Nat} {nals nals' : List (List UInt8)} (h : Splits data p nals)
    (h' : Splits data p nals') : nals = nals' := by
  induction h generalizing nals' with
  | done =>
    cases h' with
    | done => rfl
    | nal _ hlt _ _ => omega
  | nal _ hlt hnext _ ih =>
    cases h' with
    | done => omega
    | nal _ _ hnext' hrest' =>
      obtain rfl := next_unique hnext hnext'
      rw [ih hrest']

theorem drop_at_start {p : Nat} (h : StartAt data p) :
    ∃ rest, data.drop p = 0 :: 0 :: 1 :: rest := by
  obtain ⟨h0, h1, h2⟩ := h
  have hget : ∀ i, (data.drop p)[i]? = data[p + i]? := fun i => List.getElem?_drop
  have g0 := hget 0
  have g1 := hget 1
  have g2 := hget 2
  rw [Nat.add_zero, h0] at g0
  rw [h1] at g1
  rw [h2] at g2
  match data.drop p, g0, g1, g2 with
  | b0 :: b1 :: b2 :: rest, g0, g1, g2 =>
    simp only [List.getElem?_cons_zero, List.getElem?_cons_succ, Option.some.injEq] at g0 g1 g2
    exact ⟨rest, by rw [g0, g1, g2]⟩

theorem skip_zeros_at_start {p : Nat} (h : StartAt data p) :
    skip_zeros (data.drop p) p = .ok (p + 3) := by
  obtain ⟨rest, hrest⟩ := drop_at_start h
  rw [hrest]
  rfl

theorem skip_zeros_to_tail_at_start {p : Nat} (h : StartAt data p) :
    skip_zeros_to_tail (data.drop p) p = p + 3 := by
  obtain ⟨rest, hrest⟩ := drop_at_start h
  rw [hrest]
  rfl

/-- The search of a splitter lands where the units say. -/
theorem find_startcode_at {p next : Nat} (base : Nat) (hp : p ≤ data.length)
    (h : Next data p next) : find_startcode base data p = .ok next := by
  obtain ⟨q, hq, hnext⟩ := find_startcode_next base hp
  rw [hq, next_unique hnext h]

/-! ## The splitters -/

/-- The H.264 source finds the units. -/
theorem annexb_loop_splits (base : Nat) {p : Nat} {nals : List (List UInt8)}
    (h : Splits data p nals) : ∀ fuel, data.length ≤ p + fuel →
      annexb_loop base data fuel p = .ok nals := by
  induction h with
  | done =>
    intro fuel _
    unfold annexb_loop
    rw [List.drop_length, skip_zeros_to_tail]
    simp only [if_true]
  | @nal p next nals hstart hlt hnext _ ih =>
    intro fuel hfuel
    obtain ⟨fuel, rfl⟩ : ∃ f, fuel = f + 1 := ⟨fuel - 1, by omega⟩
    have hbounds := next_bounds (Nat.le_of_lt hlt) hnext
    unfold annexb_loop
    rw [skip_zeros_to_tail_at_start hstart]
    dsimp only
    rw [if_neg (Nat.ne_of_lt hlt), ff_avc_find_startcode_internal,
      find_startcode_at base (Nat.le_of_lt hlt) hnext, ok_bind, ih fuel (by omega), ok_bind]
    rfl

theorem put_ok {room : Nat} {pbuf bytes : List UInt8} (h : pbuf.length + bytes.length ≤ room) :
    put room pbuf bytes = .ok (pbuf ++ bytes) := if_pos h

theorem put_error {room : Nat} {pbuf bytes : List UInt8}
    (h : room < pbuf.length + bytes.length) :
    put room pbuf bytes = .error .outOfBounds := if_neg (by omega)

/-- A unit behind its length is written if both fit. -/
theorem put_unit {α : Type} (room : Nat) (pbuf nal : List UInt8)
    (k : List UInt8 → Except Fault α) :
    (do
      let pbuf ← put room pbuf (bytes_of 4 nal.length)
      let pbuf ← put room pbuf nal
      k pbuf) =
    if pbuf.length + 4 + nal.length ≤ room then k (pbuf ++ (bytes_of 4 nal.length ++ nal))
    else .error .outOfBounds := by
  have hlen : (pbuf ++ bytes_of 4 nal.length).length = pbuf.length + 4 := by
    rw [List.length_append, length_bytes_of]
  by_cases hsize : pbuf.length + 4 ≤ room
  · rw [put_ok (by rwa [length_bytes_of]), ok_bind]
    by_cases hnal : pbuf.length + 4 + nal.length ≤ room
    · rw [put_ok (by rwa [hlen]), ok_bind, if_pos hnal, List.append_assoc]
    · rw [put_error (by rw [hlen]; omega), error_bind, if_neg hnal]
  · rw [put_error (by rw [length_bytes_of]; omega), error_bind, if_neg (by omega)]

theorem prefixed_cons (nal : List UInt8) (nals : List (List UInt8)) :
    prefixed (nal :: nals) = bytes_of 4 nal.length ++ (nal ++ prefixed nals) := by
  rw [prefixed, List.flatMap_cons, List.append_assoc]
  rfl

/-- A unit is written in front of the units that the rest of the loop writes. -/
theorem put_units {room : Nat} {pbuf : List UInt8} (nal : List UInt8) {nals : List (List UInt8)}
    {rest : List UInt8 → Except Fault (List UInt8)}
    (hrest : ∀ pbuf : List UInt8, pbuf.length ≤ room → rest pbuf =
      if pbuf.length + (prefixed nals).length ≤ room then .ok (pbuf ++ prefixed nals)
      else .error .outOfBounds) :
    (do
      let pbuf ← put room pbuf (bytes_of 4 nal.length)
      let pbuf ← put room pbuf nal
      rest pbuf) =
    if pbuf.length + (prefixed (nal :: nals)).length ≤ room then
      .ok (pbuf ++ prefixed (nal :: nals))
    else .error .outOfBounds := by
  rw [put_unit, prefixed_cons, List.length_append, List.length_append, length_bytes_of]
  by_cases hnal : pbuf.length + 4 + nal.length ≤ room
  · have hput : (pbuf ++ (bytes_of 4 nal.length ++ nal)).length =
        pbuf.length + 4 + nal.length := by
      rw [List.length_append, List.length_append, length_bytes_of, Nat.add_assoc]
    rw [if_pos hnal, hrest _ (by rwa [hput]), hput]
    simp only [List.append_assoc, Nat.add_assoc]
  · rw [if_neg hnal, if_neg (by omega)]

/-- The FLV writer writes the units with their lengths, as far as its buffer reaches. -/
theorem avc_parse_loop_splits (base room : Nat) {p : Nat} {nals : List (List UInt8)}
    (h : Splits data p nals) : ∀ fuel pbuf, data.length ≤ p + fuel → pbuf.length ≤ room →
      avc_parse_loop base data room fuel p pbuf =
        if pbuf.length + (prefixed nals).length ≤ room then .ok (pbuf ++ prefixed nals)
        else .error .outOfBounds := by
  induction h with
  | done =>
    intro fuel pbuf _ hroom
    unfold avc_parse_loop
    rw [if_neg (Nat.lt_irrefl _), if_pos (by simpa [prefixed] using hroom)]
    simp [prefixed]
  | @nal p next nals hstart hlt hnext _ ih =>
    intro fuel pbuf hfuel hroom
    obtain ⟨fuel, rfl⟩ : ∃ f, fuel = f + 1 := ⟨fuel - 1, by omega⟩
    have hbounds := next_bounds (Nat.le_of_lt hlt) hnext
    unfold avc_parse_loop
    rw [if_pos (by omega)]
    dsimp only
    rw [skip_zeros_at_start hstart, ok_bind, avc_find_startcode,
      find_startcode_at base (Nat.le_of_lt hlt) hnext, ok_bind]
    exact put_units _ fun pbuf hput => ih fuel pbuf (by omega) hput

end

/-- Both splitters on any data: the source gives the units, and the FLV writer the units
with their lengths if they fit into 512 bytes more than the data. -/
theorem splitters_split (data : List UInt8) :
    ∃ q nals, Next data 0 q ∧ Splits data q nals ∧
      ∀ base, annexb2queue base data = .ok nals ∧
        avc_parse_nal_units base data =
          if (prefixed nals).length ≤ data.length + 512 then .ok (prefixed nals)
          else .error .outOfBounds := by
  obtain ⟨q, -, hnext⟩ := find_startcode_next 0 (Nat.zero_le data.length)
  obtain ⟨nals, hnals⟩ := data_splits (Nat.zero_le _) hnext
  refine ⟨q, nals, hnext, hnals, ?_⟩
  intro base
  constructor
  · unfold annexb2queue ff_avc_find_startcode_internal
    rw [find_startcode_at base (Nat.zero_le _) hnext, ok_bind]
    exact annexb_loop_splits base hnals _ (by omega)
  · unfold avc_parse_nal_units avc_find_startcode
    rw [find_startcode_at base (Nat.zero_le _) hnext, ok_bind,
      avc_parse_loop_splits base _ hnals _ _ (by omega) (Nat.zero_le _)]
    simp only [List.length_nil, Nat.zero_add, List.nil_append]

/-! ## The frame of the sink -/

/-- The units after the first, each behind its start code. -/
def units (nals : List (List UInt8)) : List UInt8 := nals.flatMap fun nal => 0 :: 0 :: 1 :: nal

theorem units_cons (nal : List UInt8) (nals : List (List UInt8)) :
    units (nal :: nals) = 0 :: 0 :: 1 :: (nal ++ units nals) := by
  rw [units, List.flatMap_cons]
  rfl

theorem length_units_cons (nal : List UInt8) (nals : List (List UInt8)) :
    (units (nal :: nals)).length = 3 + nal.length + (units nals).length := by
  rw [units_cons]
  simp only [List.length_cons, List.length_append]
  omega

theorem length_le_units {nal : List UInt8} {nals : List (List UInt8)} (h : nal ∈ nals) :
    nal.length ≤ (units nals).length := by
  induction nals with
  | nil => exact absurd h List.not_mem_nil
  | cons nal' nals ih =>
    rw [length_units_cons]
    rcases List.mem_cons.mp h with rfl | h
    · omega
    · have hle := ih h
      omega

/-- The stamp of a frame does not go back. -/
def in_order (s : SinkBase) (st : UInt32) : Prop :=
  ¬ (s.first_frame_ = false ∧ st - s.last_stamp_ > 0x80000000)

/-- The size that is asked for is the size that is written. -/
theorem length_save_for (index : Nat) (m : List UInt8) :
    (SinkH264.save_for index m).length = SinkH264.size_for index m := by
  unfold SinkH264.save_for SinkH264.size_for
  split <;> rfl

theorem cb_data_loop_rest (st : UInt32) {s : SinkBase} (hs : s.last_stamp_ = st)
    (key : Bool) {index : Nat} (hindex : index ≠ 0) (obuf : List UInt8)
    (queue : List (List UInt8)) :
    ∃ s', cb_data_loop st s index obuf obuf.length key queue =
      .ok (s', some (obuf ++ units queue, (obuf ++ units queue).length, key)) := by
  induction queue generalizing s index obuf with
  | nil => exact ⟨{ s with queue_ := [] }, by simp [cb_data_loop, units]⟩
  | cons om queue ih =>
    have hsave := length_save_for index om
    have hbytes : SinkH264.save_for index om = 0 :: 0 :: 1 :: om := if_neg hindex
    have horder : ¬ (s.first_frame_ = false ∧ st - s.last_stamp_ > 0x80000000) := by
      rw [hs, UInt32.sub_self]
      exact fun h => absurd h.2 (by decide)
    obtain ⟨s', hs'⟩ := ih (s := { s with first_frame_ := false, last_stamp_ := st }) rfl
      (Nat.succ_ne_zero index) (obuf ++ SinkH264.save_for index om)
    refine ⟨s', ?_⟩
    rw [List.length_append, hsave] at hs'
    unfold cb_data_loop
    dsimp only
    rw [List.take_length, put_ok (by rw [hsave]), ok_bind, if_neg hindex, ok_bind,
      if_neg horder, hs', hbytes, units_cons]
    simp [List.append_assoc]

/-- The callback gets the units of a frame, the first behind 00 00 00 01 and the others
behind 00 00 01. -/
theorem cb_data_frame (s : SinkBase) (st : UInt32) {nal : List UInt8} {nals : List (List UInt8)}
    (hq : s.queue_ = nal :: nals) (hne : nal ≠ []) (horder : in_order s st) :
    ∃ s' key, cb_data s st = .ok (s', some (0 :: units (nal :: nals), key)) := by
  obtain ⟨b, hkey⟩ : ∃ b, SinkH264.is_key nal = .ok b := by
    cases nal with
    | nil => exact absurd rfl hne
    | cons b nal => exact ⟨_, rfl⟩
  have hsave := length_save_for 0 nal
  obtain ⟨s', hs'⟩ := cb_data_loop_rest st
    (s := { s with first_frame_ := false, last_stamp_ := st }) rfl b Nat.one_ne_zero
    (SinkH264.save_for 0 nal) nals
  rw [hsave] at hs'
  have hbytes : SinkH264.save_for 0 nal ++ units nals = 0 :: units (nal :: nals) := by
    rw [units_cons]
    rfl
  refine ⟨s', b, ?_⟩
  unfold cb_data
  rw [hq]
  unfold cb_data_loop
  dsimp only
  rw [List.take_nil, put_ok (by rw [hsave]; simp), ok_bind, if_pos rfl, hkey, ok_bind,
    if_neg horder, List.nil_append, Nat.zero_add, Nat.zero_add, hs', ok_bind, hbytes]
  simp

/-! ## Well-formed units -/

/-- A unit that no start code can be seen in: it is not empty, has no 00 00 00 and no
00 00 01, and does not end in 00. -/
structure WellFormed (nal : List UInt8) : Prop where
  ne : nal ≠ []
  no_zeros : ¬ [0, 0, 0] <:+: nal
  no_startcode : ¬ [0, 0, 1] <:+: nal
  last_ne : nal.getLast? ≠ some 0

theorem infix_of_start {nal : List UInt8} {i : Nat} (h : StartAt nal i) :
    [0, 0, 1] <:+: nal := by
  obtain ⟨rest, hrest⟩ := drop_at_start h
  refine ⟨nal.take i, rest, ?_⟩
  have hcut := List.take_append_drop i nal
  rw [hrest] at hcut
  rw [List.append_assoc]
  exact hcut

/-- No start code begins inside a unit, whatever comes after the unit. -/
theorem no_start_in_unit {nal : List UInt8} (h : WellFormed nal) (rest : List UInt8) {i : Nat}
    (hi : i < nal.length) : ¬ StartAt (nal ++ rest) i := by
  rintro ⟨h0, h1, h2⟩
  by_cases hin : i + 2 < nal.length
  · rw [List.getElem?_append_left (by omega)] at h0 h1 h2
    exact h.no_startcode (infix_of_start ⟨h0, h1, h2⟩)
  · -- the start code would begin with the last byte of the unit, or the byte before it
    apply h.last_ne
    rw [List.getLast?_eq_getElem?]
    obtain hlast | hlast : nal.length - 1 = i ∨ nal.length - 1 = i + 1 := by omega
    · rw [hlast]
      rwa [List.getElem?_append_left hi] at h0
    · rw [hlast]
      rwa [List.getElem?_append_left (by omega)] at h1

/-- A unit that no start code begins in, before data that splits. -/
theorem unit_splits {pre nal rest : List UInt8} {nals : List (List UInt8)} (hne : nal ≠ [])
    (hnone : ∀ i < nal.length, ¬ StartAt (nal ++ rest) i)
    (hrest : Splits (pre ++ [0, 0, 1] ++ nal ++ rest) (pre ++ [0, 0, 1] ++ nal).length nals) :
    Splits (pre ++ [0, 0, 1] ++ nal ++ rest) pre.length (nal :: nals) := by
  have hpos : 0 < nal.length := List.length_pos_iff.mpr hne
  obtain ⟨data, hdata⟩ : ∃ data, data = pre ++ [0, 0, 1] ++ nal ++ rest := ⟨_, rfl⟩
  have hpre : (pre ++ [0, 0, 1]).length = pre.length + 3 := List.length_append
  have hlen : data.length = pre.length + 3 + nal.length + rest.length := by
    rw [hdata, List.length_append, List.length_append, hpre]
  rw [← hdata, List.length_append, hpre] at hrest
  rw [← hdata]
  have hstart : StartAt data pre.length := by
    rw [hdata, List.append_assoc, List.append_assoc]
    exact (start_append pre ([0, 0, 1] ++ (nal ++ rest)) 0).mpr ⟨rfl, rfl, rfl⟩
  have hinside : ∀ r, pre.length + 3 ≤ r → r < pre.length + 3 + nal.length →
      ¬ StartAt data r := by
    intro r hr hlt
    obtain ⟨i, rfl⟩ := Nat.exists_eq_add_of_le hr
    rw [hdata, List.append_assoc _ nal, ← hpre, start_append]
    exact hnone i (by omega)
  have hnext : Next data (pre.length + 3) (pre.length + 3 + nal.length) := by
    rcases splits_head hrest with heq | ⟨hs, hlt⟩
    · exact .inr ⟨fun r hr hlt => hinside r hr (by omega), heq⟩
    · exact .inl ⟨Nat.le_add_right _ _, by omega, hs, hinside⟩
  have hslice : slice data (pre.length + 3) (pre.length + 3 + nal.length) = nal := by
    unfold slice
    rw [hdata, ← hpre, List.append_assoc _ nal, List.drop_left, Nat.add_sub_cancel_left,
      List.take_left]
  have hall := Splits.nal hstart (by omega) hnext hrest
  rwa [hslice] at hall

/-- The frame of well-formed units splits into the units. -/
theorem frame_splits {nals : List (List UInt8)} (h : ∀ nal ∈ nals, WellFormed nal)
    (pre : List UInt8) : Splits (pre ++ units nals) pre.length nals := by
  induction nals generalizing pre with
  | nil =>
    have hdone : Splits pre pre.length [] := Splits.done
    simpa [units] using hdone
  | cons nal nals ih =>
    have hnal := h nal List.mem_cons_self
    have hdata : pre ++ units (nal :: nals) = pre ++ [0, 0, 1] ++ nal ++ units nals := by
      rw [units_cons, List.append_assoc, List.append_assoc]
      rfl
    rw [hdata]
    exact unit_splits hnal.ne (fun i hi => no_start_in_unit hnal _ hi)
      (ih (fun nal' hnal' => h nal' (List.mem_cons_of_mem _ hnal')) _)

theorem length_prefixed_units (nals : List (List UInt8)) :
    (prefixed nals).length = (units nals).length + nals.length := by
  induction nals with
  | nil => rfl
  | cons nal nals ih =>
    rw [prefixed_cons, length_units_cons, List.length_append, List.length_append,
      length_bytes_of, ih, List.length_cons]
    omega

/-- Both splitters on the frame of well-formed units. -/
theorem frame_of_units_splits {nals : List (List UInt8)} (hne : nals ≠ [])
    (hwf : ∀ nal ∈ nals, WellFormed nal) (base : Nat) :
    annexb2queue base (0 :: units nals) = .ok nals ∧
      avc_parse_nal_units base (0 :: units nals) =
        if nals.length ≤ 513 then .ok (prefixed nals) else .error .outOfBounds := by
  have hsplits : Splits (0 :: units nals) 1 nals := frame_splits hwf [0]
  obtain ⟨nal, rest, hcons⟩ := List.exists_cons_of_ne_nil hne
  have hnext : Next (0 :: units nals) 0 1 := by
    have hhead : StartAt (0 :: units nals) 1 ∧ 1 + 3 < (0 :: units nals).length := by
      rcases splits_head hsplits with hend | hhead
      · rw [hcons, units_cons] at hend
        simp at hend
      · exact hhead
    refine .inl ⟨Nat.zero_le 1, by omega, hhead.1, ?_⟩
    -- the first start code has one more zero, so it does not stand at the front
    intro r _ hr hzero
    obtain rfl : r = 0 := by omega
    rw [hcons, units_cons] at hzero
    exact absurd hzero.2.2 (by simp)
  obtain ⟨q, nals', hq', hsplits', hboth⟩ := splitters_split (0 :: units nals)
  obtain rfl := next_unique hq' hnext
  obtain rfl := splits_unique hsplits' hsplits
  refine ⟨(hboth base).1, ?_⟩
  rw [(hboth base).2, length_prefixed_units, List.length_cons]
  have hroom : (units nals').length + nals'.length ≤ (units nals').length + 1 + 512 ↔
      nals'.length ≤ 513 := by omega
  simp only [hroom]

/-! ## The law -/

/-- The frame that the sink makes of well-formed units is split into these units again, at
every address. The H.264 source always does it, and the FLV writer if and only if there
are at most 513 units. -/
theorem a_frame_splits_into_its_units_up_to_513 (s : SinkBase) (st : UInt32)
    (hne : s.queue_ ≠ []) (hwf : ∀ nal ∈ s.queue_, WellFormed nal) (horder : in_order s st) :
    ∃ s' frame key, cb_data s st = .ok (s', some (frame, key)) ∧
      ∀ base, annexb2queue base frame = .ok s.queue_ ∧
        (avc_parse_nal_units base frame = .ok (prefixed s.queue_) ↔ s.queue_.length ≤ 513) := by
  obtain ⟨nal, nals, hq⟩ := List.exists_cons_of_ne_nil hne
  obtain ⟨s', key, hframe⟩ :=
    cb_data_frame s st hq (hwf nal (hq ▸ List.mem_cons_self)).ne horder
  rw [← hq] at hframe
  refine ⟨s', _, key, hframe, ?_⟩
  intro base
  obtain ⟨hqueue, hparse⟩ := frame_of_units_splits hne hwf base
  refine ⟨hqueue, ?_⟩
  rw [hparse]
  constructor
  · intro hok
    split at hok
    · assumption
    · cases hok
  · exact fun hle => if_pos hle

/-- A frame of two units. -/
theorem a_frame_splits_into_its_units_up_to_513_example :
    ∃ s' frame key, cb_data ⟨true, 0, [[0x67, 0, 1], [0x68]]⟩ 90 = .ok (s', some (frame, key)) ∧
      ∀ base, annexb2queue base frame = .ok [[0x67, 0, 1], [0x68]] ∧
        (avc_parse_nal_units base frame = .ok (prefixed [[0x67, 0, 1], [0x68]]) ↔
          [[0x67, 0, 1], ([0x68] : List UInt8)].length ≤ 513) := by
  refine a_frame_splits_into_its_units_up_to_513 ⟨true, 0, [[0x67, 0, 1], [0x68]]⟩ 90
    (List.cons_ne_nil _ _) ?_ (by unfold in_order; decide)
  intro nal hnal
  simp only [List.mem_cons, List.not_mem_nil, or_false] at hnal
  rcases hnal with rfl | rfl
  · exact ⟨by decide, by decide, by decide, by decide⟩
  · exact ⟨by decide, by decide, by decide, by decide⟩

/-- 514 units of one byte are written over the end of the buffer. -/
theorem a_frame_of_514_units_overruns_the_buffer :
    (∀ nal ∈ List.replicate 514 [0x68], WellFormed nal) ∧
      in_order ⟨true, 0, List.replicate 514 [0x68]⟩ 90 ∧
      ∃ s' frame key,
        cb_data ⟨true, 0, List.replicate 514 [0x68]⟩ 90 = .ok (s', some (frame, key)) ∧
        avc_parse_nal_units 0 frame = .error .outOfBounds ∧
        avc_parse_nal_units 0 frame ≠ .ok (prefixed (List.replicate 514 [0x68])) := by
  have hwf : ∀ nal ∈ List.replicate 514 [0x68], WellFormed nal := by
    intro nal hnal
    obtain ⟨-, rfl⟩ := List.mem_replicate.mp hnal
    exact ⟨by decide, by decide, by decide, by decide⟩
  have horder : in_order ⟨true, 0, List.replicate 514 [0x68]⟩ 90 := by
    unfold in_order
    simp
  have hq : (List.replicate 514 [0x68] : List (List UInt8)) =
      [0x68] :: List.replicate 513 [0x68] := List.replicate_succ
  obtain ⟨s', key, hframe⟩ := cb_data_frame ⟨true, 0, List.replicate 514 [0x68]⟩ 90 hq
    (List.cons_ne_nil _ _) horder
  rw [← hq] at hframe
  have hne : (List.replicate 514 [0x68] : List (List UInt8)) ≠ [] := hq ▸ List.cons_ne_nil _ _
  have hparse := (frame_of_units_splits hne hwf 0).2
  rw [List.length_replicate, if_neg (by decide)] at hparse
  refine ⟨hwf, horder, s', _, key, hframe, hparse, ?_⟩
  rw [hparse]
  exact fun h => by cases h

end zonekey_mcu.annexb
