-- What a stream of packets carries: the NAL units that stand in it, whole, aggregated
-- or in fragments. The packets of a frame carry its units, and a packet that arrives
-- does one of five things to the receiver.
import ZonekeyMcu.Rfc3984

namespace zonekey_mcu.rfc3984

open big_endian

/-! ## The header bytes -/

theorem forall_byte {P : UInt8 → Prop} (h : ∀ i : Fin 256, P (UInt8.ofNat i)) (b : UInt8) :
    P b := by
  have hb := h ⟨b.toNat, b.toNat_lt⟩
  rwa [UInt8.ofNat_toNat] at hb

/-- The FU-A indicator is of type FU-A, and the STAP-A header of type STAP-A. -/
theorem init_type (h : UInt8) :
    nal_header_get_type (nal_header_init (nal_header_get_nri h) TYPE_FU_A) = TYPE_FU_A ∧
      nal_header_get_type (nal_header_init (nal_header_get_nri h) TYPE_STAP_A) = TYPE_STAP_A := by
  revert h
  apply forall_byte
  decide +kernel

/-- The start and the end bit of the FU header of a unit. -/
theorem fu_header_bits (start fin : Bool) (h : UInt8) :
    (fu_header start fin (nal_header_get_type h) >>> 7 != 0) = start ∧
      ((fu_header start fin (nal_header_get_type h) >>> 6) &&& 1 != 0) = fin := by
  revert h
  apply forall_byte
  cases start <;> cases fin <;> decide +kernel

/-- The header of a unit is rebuilt from the indicator and the FU header. -/
theorem header_restored (start fin : Bool) {h : UInt8} (hf : h &&& 0x80 = 0) :
    nal_header_init
        (nal_header_get_nri (nal_header_init (nal_header_get_nri h) TYPE_FU_A))
        (nal_header_get_type (fu_header start fin (nal_header_get_type h))) = h := by
  revert h
  apply forall_byte
  cases start <;> cases fin <;> decide +kernel

/-! ## The kinds of packets -/

/-- The units of a STAP-A packet, each with its size. -/
def stapa_body (nals : List (List UInt8)) : List UInt8 :=
  nals.flatMap fun nal => put_nal_size nal.length ++ nal

/-- A message that aggregates some units. -/
structure Stapa (m : List UInt8) (nals : List (List UInt8)) : Prop where
  shape : ∃ h, m = h :: stapa_body nals ∧ nal_header_get_type h = TYPE_STAP_A
  sizes : ∀ nal ∈ nals, nal.length < 65536

/-- A fragment with its two bits: the header that it rebuilds, and its bytes. -/
structure Fragment (m : List UInt8) (start fin : Bool) (h : UInt8) (body : List UInt8) :
    Prop where
  shape : ∃ indicator fu, m = indicator :: fu :: body ∧
    nal_header_get_type indicator = TYPE_FU_A ∧ (fu >>> 7 != 0) = start ∧
    ((fu >>> 6) &&& 1 != 0) = fin ∧
    nal_header_init (nal_header_get_nri indicator) (nal_header_get_type fu) = h

/-- The packets from here on, and the units that they complete, in order. In the middle of
a fragmented unit, the first argument is what its fragments have given so far. -/
inductive Carries : Option (List UInt8) → List Packet → List (List UInt8) → Prop
  | done : Carries none [] []
  | single {im : Packet} {packets : List Packet} {nals : List (List UInt8)} :
      nal_unit im.payload → Carries none packets nals →
      Carries none (im :: packets) (im.payload :: nals)
  | stapa {im : Packet} {packets : List Packet} {held nals : List (List UInt8)} :
      Stapa im.payload held → Carries none packets nals →
      Carries none (im :: packets) (held ++ nals)
  | start {im : Packet} {packets : List Packet} {nals : List (List UInt8)} {h : UInt8}
      {body : List UInt8} :
      Fragment im.payload true false h body → Carries (some (h :: body)) packets nals →
      Carries none (im :: packets) nals
  | middle {im : Packet} {packets : List Packet} {nals : List (List UInt8)} {h : UInt8}
      {b body : List UInt8} :
      Fragment im.payload false false h body → Carries (some (b ++ body)) packets nals →
      Carries (some b) (im :: packets) nals
  | last {im : Packet} {packets : List Packet} {nals : List (List UInt8)} {h : UInt8}
      {b body : List UInt8} :
      Fragment im.payload false true h body → Carries none packets nals →
      Carries (some b) (im :: packets) ((b ++ body) :: nals)

theorem carries_append {cur : Option (List UInt8)} {packets packets' : List Packet}
    {nals nals' : List (List UInt8)} (h : Carries cur packets nals)
    (h' : Carries none packets' nals') : Carries cur (packets ++ packets') (nals ++ nals') := by
  induction h with
  | done => exact h'
  | single him _ ih => exact .single him ih
  | stapa him _ ih =>
    rw [List.append_assoc]
    exact .stapa him ih
  | start him _ ih => exact .start him ih
  | middle him _ ih => exact .middle him ih
  | last him _ ih => exact .last him ih

/-! ## The receiver -/

theorem stapa_body_cons (nal : List UInt8) (nals : List (List UInt8)) :
    stapa_body (nal :: nals) = put_nal_size nal.length ++ (nal ++ stapa_body nals) := by
  rw [stapa_body, List.flatMap_cons, List.append_assoc]
  rfl

/-- One turn of the loop over a unit that is whole. -/
theorem split_stapa_unit {nal : List UInt8} (hnal : nal.length < 65536) (rest : List UInt8)
    (fuel : Nat) :
    split_stapa (fuel + 1) (put_nal_size nal.length ++ (nal ++ rest)) =
      (do
        let nals ← split_stapa fuel rest
        return nal :: nals) := by
  have hsz : value_of (put_nal_size nal.length) = nal.length := value_of_bytes_of_lt hnal
  unfold put_nal_size bytes_of bytes_of bytes_of at hsz ⊢
  rw [List.cons_append, List.cons_append, List.nil_append, split_stapa, hsz]
  simp only [List.length_append]
  rw [if_neg (by omega), List.drop_left, List.take_left]

/-- The sizes in a STAP-A body lead the reader from unit to unit. -/
theorem split_stapa_body {nals : List (List UInt8)} (h : ∀ nal ∈ nals, nal.length < 65536) :
    ∀ fuel, (stapa_body nals).length ≤ fuel → split_stapa fuel (stapa_body nals) = .ok nals := by
  induction nals with
  | nil =>
    intro fuel _
    cases fuel <;> rfl
  | cons nal nals ih =>
    intro fuel hfuel
    rw [stapa_body_cons, List.length_append, List.length_append, put_nal_size,
      length_bytes_of] at hfuel
    obtain ⟨fuel, rfl⟩ : ∃ f, fuel = f + 1 := ⟨fuel - 1, by omega⟩
    rw [stapa_body_cons, split_stapa_unit (h nal List.mem_cons_self),
      ih (fun nal' hnal' => h nal' (List.mem_cons_of_mem _ hnal')) fuel (by omega), ok_bind]
    rfl

theorem receive_single {m : List UInt8} (hm : nal_unit m) (ctx : Rfc3984Context) :
    receive ctx m = .ok { ctx with m := none, q := ctx.q ++ [m] } := by
  cases m with
  | nil => exact hm.elim
  | cons h body =>
    obtain ⟨-, hstap, hfua⟩ := hm
    unfold receive header
    rw [ok_bind, if_neg hstap, if_neg hfua]
    rfl

theorem receive_stapa {m : List UInt8} {held : List (List UInt8)} (hm : Stapa m held)
    (ctx : Rfc3984Context) : receive ctx m = .ok { ctx with q := ctx.q ++ held } := by
  obtain ⟨⟨h, rfl, htype⟩, hsizes⟩ := hm
  have hsplit : split_stapa (h :: stapa_body held).length (stapa_body held) = .ok held :=
    split_stapa_body hsizes _ (Nat.le_succ _)
  unfold receive header
  rw [ok_bind, if_pos htype, List.tail_cons, hsplit, ok_bind]
  rfl

/-- A fragment starts a unit, or adds to the unit that waits. Its end bit puts the unit
into the queue. -/
theorem receive_fragment {m body : List UInt8} {start fin : Bool} {h : UInt8}
    (hm : Fragment m start fin h body) (ctx : Rfc3984Context) :
    receive ctx m =
      .ok { ctx with
        m := if fin then none else if start then some (h :: body) else ctx.m.map (· ++ body)
        q := ctx.q ++
          if fin then (if start then some (h :: body) else ctx.m.map (· ++ body)).toList
          else [] } := by
  obtain ⟨indicator, fu, rfl, htype, hstart, hfin, hh⟩ := hm.shape
  have hstap : nal_header_get_type indicator ≠ TYPE_STAP_A := by
    rw [htype]
    decide
  unfold receive header aggregate_fua
  rw [ok_bind, if_neg hstap, if_pos htype]
  simp only [hstart, hfin, hh]
  cases fin <;> simp

/-- What a packet does to the fragments that wait, and the units that it adds, come
through whole: the units of the queue go out in order. -/
theorem unpack_of_receive {im : Packet} {f : Option (List UInt8) → Option (List UInt8)}
    {g : Option (List UInt8) → List (List UInt8)}
    (h : ∀ ctx, receive ctx im.payload =
      .ok { ctx with m := f ctx.m, q := ctx.q ++ g ctx.m }) (ctx : Rfc3984Context) :
    ∃ ctx' out, rfc3984_unpack ctx im = .ok (ctx', out) ∧ ctx'.m = f ctx.m ∧
      out ++ ctx'.q = ctx.q ++ g ctx.m ∧ (im.marker = true → ctx'.q = []) := by
  have hstart : ∃ ctx₁ before, start_frame ctx im.ts = (ctx₁, before) ∧ ctx₁.m = ctx.m ∧
      before ++ ctx₁.q = ctx.q := by
    unfold start_frame
    split
    · split
      · exact ⟨_, _, rfl, rfl, List.append_nil _⟩
      · exact ⟨_, _, rfl, rfl, rfl⟩
    · exact ⟨_, _, rfl, rfl, rfl⟩
  obtain ⟨ctx₁, before, hs, hm, hq⟩ := hstart
  unfold rfc3984_unpack
  rw [hs]
  dsimp only
  rw [h ctx₁, ok_bind]
  unfold end_frame
  split
  · refine ⟨_, _, rfl, by rw [← hm], ?_, fun _ => rfl⟩
    simp only [List.append_nil, ← hq, hm, List.append_assoc]
  · rename_i hmarker
    refine ⟨_, _, rfl, by rw [← hm], ?_, fun he => absurd he hmarker⟩
    simp only [List.append_nil, ← hq, hm, List.append_assoc]

end zonekey_mcu.rfc3984
