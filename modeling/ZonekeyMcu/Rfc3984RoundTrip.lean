-- The packets of a frame carry its units, in order and whole, and only the last of them
-- has the marker. So a receiver that gets them all puts out the units of the frame.
import ZonekeyMcu.Rfc3984Stream

namespace zonekey_mcu.rfc3984

open big_endian

def Unmarked (packets : List Packet) : Prop := ∀ im ∈ packets, im.marker = false

/-- The last packet has the marker as given, and no other packet has it. -/
def Ends (marker : Bool) (packets : List Packet) : Prop :=
  ∃ front last, packets = front ++ [last] ∧ Unmarked front ∧ last.marker = marker

theorem ends_one (m : List UInt8) (ts : UInt32) (marker : Bool) : Ends marker [⟨m, ts, marker⟩] :=
  ⟨[], _, rfl, fun _ h => absurd h List.not_mem_nil, rfl⟩

theorem unmarked_append {packets packets' : List Packet} (h : Unmarked packets)
    (h' : Unmarked packets') : Unmarked (packets ++ packets') := by
  intro im him
  rcases List.mem_append.mp him with him | him
  · exact h im him
  · exact h' im him

theorem ends_append {marker : Bool} {packets packets' : List Packet} (h : Unmarked packets)
    (h' : Ends marker packets') : Ends marker (packets ++ packets') := by
  obtain ⟨front, last, rfl, hfront, hlast⟩ := h'
  exact ⟨packets ++ front, last, (List.append_assoc _ _ _).symm, unmarked_append h hfront, hlast⟩

theorem ends_cons {marker : Bool} {im : Packet} {packets : List Packet} (h : im.marker = false)
    (h' : Ends marker packets) : Ends marker (im :: packets) :=
  ends_append (fun _ him => List.mem_singleton.mp him ▸ h) h'

theorem unmarked_of_ends {packets : List Packet} (h : Ends false packets) : Unmarked packets := by
  obtain ⟨front, last, rfl, hfront, hlast⟩ := h
  exact unmarked_append hfront fun _ him => List.mem_singleton.mp him ▸ hlast

/-! ## Fragments -/

section

variable {ts : UInt32} {indicator h : UInt8} {marker : Bool}

theorem fragment_middle (fin : Bool) (m : List UInt8)
    (hi : nal_header_get_type indicator = TYPE_FU_A) :
    ∃ h', Fragment
      (prepend_fu_indicator_and_header m indicator false fin (nal_header_get_type h))
      false fin h' m :=
  ⟨_, ⟨⟨_, _, rfl, hi, (fu_header_bits _ _ _).1, (fu_header_bits _ _ _).2, rfl⟩⟩⟩

/-- The fragments after the first complete what is left of the unit. -/
theorem frag_loop_carries (hi : nal_header_get_type indicator = TYPE_FU_A)
    {payload_max_size : Int} {fuel : Nat} {b nalu : List UInt8} {packets : List Packet}
    (hok : frag_loop ts indicator (nal_header_get_type h) payload_max_size marker fuel false nalu =
      .ok packets) :
    Carries (some b) packets [b ++ nalu] ∧ Ends marker packets := by
  induction fuel generalizing b nalu packets with
  | zero =>
    unfold frag_loop at hok
    split at hok
    · split at hok <;> cases hok
    · cases hok
      obtain ⟨h', hfrag⟩ := fragment_middle true nalu hi
      exact ⟨.last hfrag .done, ends_one _ _ _⟩
  | succ fuel ih =>
    unfold frag_loop at hok
    split at hok
    · split at hok
      · cases hok
      · obtain ⟨rest, hrest, hok⟩ := bind_ok hok
        cases hok
        obtain ⟨h', hfrag⟩ := fragment_middle false (nalu.take payload_max_size.toNat) hi
        have hih := ih (b := b ++ nalu.take payload_max_size.toNat) hrest
        rw [List.append_assoc, List.take_append_drop] at hih
        exact ⟨.middle hfrag hih.1, ends_cons rfl hih.2⟩
    · cases hok
      obtain ⟨h', hfrag⟩ := fragment_middle true nalu hi
      exact ⟨.last hfrag .done, ends_one _ _ _⟩

/-- Fragments without room for a byte never end. -/
theorem frag_loop_without_room {type : UInt8} {fuel : Nat} {start : Bool} {nalu : List UInt8}
    (hne : nalu ≠ []) (packets : List Packet) :
    frag_loop ts indicator type 0 marker fuel start nalu ≠ .ok packets := by
  have hlong : (0 : Int) < nalu.length := by
    have := List.length_pos_iff.mpr hne
    omega
  induction fuel generalizing start packets with
  | zero =>
    unfold frag_loop
    rw [if_pos hlong, if_neg (by decide)]
    intro hok
    cases hok
  | succ fuel ih =>
    unfold frag_loop
    rw [if_pos hlong, if_neg (by decide)]
    intro hok
    obtain ⟨rest, hrest, -⟩ := bind_ok hok
    exact ih rest hrest

theorem frag_nalu_carries {nalu : List UInt8} {maxsize : Int} {packets : List Packet}
    (hn : nal_unit nalu) (hlong : maxsize < nalu.length)
    (hok : frag_nalu_and_send ts nalu marker maxsize = .ok packets) :
    Carries none packets [nalu] ∧ Ends marker packets := by
  cases nalu with
  | nil => exact hn.elim
  | cons h body =>
    have hmore : maxsize - 2 < (h :: body).length := by omega
    unfold frag_nalu_and_send header at hok
    rw [ok_bind] at hok
    -- the first fragment has room for the header of the unit
    have hroom : 1 ≤ maxsize - 2 := by
      rcases Int.lt_trichotomy (maxsize - 2) 0 with hneg | hzero | hpos
      · unfold frag_loop at hok
        rw [if_pos hmore, if_pos hneg] at hok
        cases hok
      · rw [hzero] at hok
        exact absurd hok (frag_loop_without_room (List.cons_ne_nil _ _) _)
      · omega
    unfold frag_loop at hok
    rw [if_pos hmore, if_neg (by omega)] at hok
    obtain ⟨rest, hrest, hok⟩ := bind_ok hok
    cases hok
    obtain ⟨n, hn'⟩ : ∃ n, (maxsize - 2).toNat = n + 1 := ⟨(maxsize - 2).toNat - 1, by omega⟩
    rw [hn'] at hrest ⊢
    have hcarried := frag_loop_carries (b := h :: body.take n) (init_type h).1 hrest
    rw [List.drop_succ_cons, List.cons_append, List.take_append_drop] at hcarried
    refine ⟨.start ?_ hcarried.1, ends_cons rfl hcarried.2⟩
    exact ⟨⟨_, _, rfl, (init_type h).1, (fu_header_bits _ _ _).1, (fu_header_bits _ _ _).2,
      header_restored _ _ hn.1⟩⟩

theorem length_fragment_le (indicator : UInt8) (m : List UInt8) (start fin : Bool) (type : UInt8) :
    (prepend_fu_indicator_and_header m indicator start fin type).length ≤ m.length + 2 := by
  unfold prepend_fu_indicator_and_header
  rw [List.length_cons, List.length_cons]
  split
  · rw [List.length_drop]
    omega
  · omega

/-- With room for a byte the fragments are made, and none is too long. -/
theorem frag_loop_fits {type : UInt8} {payload_max_size : Int} (hroom : 1 ≤ payload_max_size)
    (fuel : Nat) (start : Bool) {nalu : List UInt8} (hfuel : nalu.length ≤ fuel) :
    ∃ packets, frag_loop ts indicator type payload_max_size marker fuel start nalu =
        .ok packets ∧
      ∀ im ∈ packets, (im.payload.length : Int) ≤ payload_max_size + 2 ∧ im.ts = ts := by
  induction fuel generalizing start nalu with
  | zero =>
    have hshort : ¬ payload_max_size < nalu.length := by omega
    unfold frag_loop
    rw [if_neg hshort]
    refine ⟨_, rfl, ?_⟩
    intro im him
    cases List.mem_singleton.mp him
    have hlen := length_fragment_le indicator nalu false true type
    exact ⟨by dsimp only; omega, rfl⟩
  | succ fuel ih =>
    unfold frag_loop
    split
    · have hless : (nalu.drop payload_max_size.toNat).length ≤ fuel := by
        rw [List.length_drop]
        omega
      obtain ⟨rest, hrest, hfits⟩ := ih false hless
      rw [if_neg (by omega)]
      dsimp only
      rw [hrest, ok_bind]
      refine ⟨_, rfl, ?_⟩
      intro im him
      rcases List.mem_cons.mp him with rfl | him
      · have htake := List.length_take_le payload_max_size.toNat nalu
        have hlen := length_fragment_le indicator
          (nalu.take payload_max_size.toNat) start false type
        exact ⟨by dsimp only; omega, rfl⟩
      · exact hfits im him
    · refine ⟨_, rfl, ?_⟩
      intro im him
      cases List.mem_singleton.mp him
      have hlen := length_fragment_le indicator nalu false true type
      exact ⟨by dsimp only; omega, rfl⟩

end

/-! ## One unit -/

section

variable {ctx : Rfc3984Context} {ts : UInt32} {m : List UInt8} {fin : Bool}

theorem send_nal_carries {packets : List Packet} (hm : nal_unit m)
    (hok : send_nal ctx ts m fin = .ok packets) :
    Carries none packets [m] ∧ Ends fin packets := by
  unfold send_nal at hok
  split at hok
  · rename_i hlong
    exact frag_nalu_carries hm hlong hok
  · cases hok
    exact ⟨.single hm .done, ends_one _ _ _⟩

theorem send_nal_fits (ts : UInt32) (h3 : 3 ≤ ctx.maxsz) (hm : nal_unit m) :
    ∃ packets, send_nal ctx ts m fin = .ok packets ∧
      ∀ im ∈ packets, (im.payload.length : Int) ≤ ctx.maxsz ∧ im.ts = ts := by
  unfold send_nal
  split
  · cases m with
    | nil => exact hm.elim
    | cons h body =>
      have hroom : 1 ≤ ctx.maxsz - 2 := by omega
      obtain ⟨packets, hok, hfits⟩ :=
        frag_loop_fits hroom (h :: body).length true (Nat.le_refl (h :: body).length)
      refine ⟨packets, hok, ?_⟩
      intro im him
      obtain ⟨hlen, hts⟩ := hfits im him
      exact ⟨by omega, hts⟩
  · refine ⟨_, rfl, ?_⟩
    intro im him
    cases List.mem_singleton.mp him
    exact ⟨by dsimp only; omega, rfl⟩

/-- The message that waits, and the units in it: one unit as it is, or a STAP-A message
whose size is known. -/
inductive Held (ctx : Rfc3984Context) : Pending → List (List UInt8) → Prop
  | none : Held ctx none []
  | one {nal : List UInt8} :
      ctx.stap_a_allowed = true → nal_unit nal → 2 * (nal.length : Int) < ctx.maxsz →
      Held ctx (some (nal, nal.length + 3)) [nal]
  | more {prevm : List UInt8} {nals : List (List UInt8)} :
      ctx.stap_a_allowed = true → Stapa prevm nals → (prevm.length : Int) < ctx.maxsz →
      Held ctx (some (prevm, prevm.length)) nals

theorem held_fits {prevm : List UInt8} {prevsz : Int} {held : List (List UInt8)}
    (h : Held ctx (some (prevm, prevsz)) held) : (prevm.length : Int) ≤ ctx.maxsz := by
  cases h with
  | one _ _ hlen => omega
  | more _ _ hlen => omega

theorem held_carries {prevm : List UInt8} {prevsz : Int} {held : List (List UInt8)}
    (h : Held ctx (some (prevm, prevsz)) held) (marker : Bool) :
    Carries none [⟨prevm, ts, marker⟩] held := by
  cases h with
  | one _ hnal _ => exact .single hnal .done
  | more _ hstapa _ =>
    have hone : Carries none [⟨prevm, ts, marker⟩] (held ++ []) := .stapa hstapa .done
    rwa [List.append_nil] at hone

/-- A unit joins a STAP-A message with its size before it. -/
theorem stapa_snoc {prevm : List UInt8} {nals : List (List UInt8)} (h : Stapa prevm nals)
    (hm : m.length < 65536) : Stapa (prevm ++ (put_nal_size m.length ++ m)) (nals ++ [m]) := by
  obtain ⟨⟨h, rfl, htype⟩, hsizes⟩ := h
  refine ⟨⟨h, ?_, htype⟩, ?_⟩
  · simp [stapa_body, List.flatMap_append]
  · intro nal hnal
    rcases List.mem_append.mp hnal with hnal | hnal
    · exact hsizes nal hnal
    · exact List.mem_singleton.mp hnal ▸ hm

theorem prepend_stapa_one (hm : nal_unit m) (hlen : m.length < 65536) :
    ∃ m', prepend_stapa m = .ok m' ∧ Stapa m' [m] ∧ m'.length = m.length + 3 := by
  cases m with
  | nil => exact hm.elim
  | cons h body =>
    refine ⟨_, rfl, ⟨⟨_, ?_, (init_type h).2⟩, ?_⟩, ?_⟩
    · simp [stapa_body]
    · intro nal hnal
      exact List.mem_singleton.mp hnal ▸ hlen
    · rw [List.length_cons, List.length_append, put_nal_size, length_bytes_of]
      omega

/-- A unit that fits joins the message that waits. -/
theorem concat_holds {prevm : List UInt8} {prevsz : Int} {held : List (List UInt8)}
    (h : Held ctx (some (prevm, prevsz)) held) (hmax : ctx.maxsz ≤ 65535)
    (hfits : prevsz + m.length < ctx.maxsz - 2) :
    ∃ prevm', concat_nalus prevm m = .ok prevm' ∧
      Held ctx (some (prevm', prevsz + (m.length + 2))) (held ++ [m]) := by
  cases h with
  | one hstap hnal hlen =>
    obtain ⟨m', hm', hstapa, hlen'⟩ := prepend_stapa_one hnal (by omega)
    have hnot : ∃ h, header prevm = .ok h ∧ nal_header_get_type h ≠ TYPE_STAP_A := by
      cases prevm with
      | nil => exact hnal.elim
      | cons h body => exact ⟨h, rfl, hnal.2.1⟩
    obtain ⟨h, hh, htype⟩ := hnot
    unfold concat_nalus
    rw [hh, ok_bind, if_pos htype, hm', ok_bind]
    refine ⟨_, rfl, ?_⟩
    have hsnoc := stapa_snoc hstapa (m := m) (by omega)
    have hsize : ((m' ++ (put_nal_size m.length ++ m)).length : Int) =
        prevm.length + 3 + (m.length + 2) := by
      rw [List.length_append, List.length_append, put_nal_size, length_bytes_of, hlen']
      push_cast
      omega
    rw [← hsize]
    exact .more hstap hsnoc (by omega)
  | more hstap hstapa hlen =>
    have hsnoc := stapa_snoc hstapa (m := m) (by omega)
    obtain ⟨⟨h, rfl, htype⟩, -⟩ := hstapa
    unfold concat_nalus header
    rw [ok_bind, if_neg (not_not.mpr htype), ok_bind]
    refine ⟨_, rfl, ?_⟩
    have hsize : ((h :: stapa_body held ++ (put_nal_size m.length ++ m)).length : Int) =
        (h :: stapa_body held).length + (m.length + 2) := by
      rw [List.length_append, List.length_append, put_nal_size, length_bytes_of]
      push_cast
      omega
    rw [← hsize]
    exact .more hstap hsnoc (by omega)

theorem lt_half {n : Nat} {maxsz : Int} (h : (n : Int) < maxsz.tdiv 2) :
    2 * (n : Int) < maxsz := by
  have hsign : Int.sign 2 = 1 := rfl
  rw [Int.tdiv_eq_ediv, hsign] at h
  split at h <;> omega

/-- The marker of what a unit gives: the last unit leaves a message that waits, or its
last packet has the marker. -/
def Marks (fin : Bool) (packets : List Packet) (prevm : Pending) : Prop :=
  if prevm.isSome then Unmarked packets else Ends fin packets

theorem hold_or_send_carries {packets : List Packet} {prevm : Pending}
    (hstap : ctx.stap_a_allowed = true) (hm : nal_unit m)
    (hok : hold_or_send ctx ts m fin = .ok (packets, prevm)) :
    ∃ gone held, [m] = gone ++ held ∧ Carries none packets gone ∧ Held ctx prevm held ∧
      Marks fin packets prevm := by
  unfold hold_or_send at hok
  split at hok
  · rename_i hhalf
    cases hok
    exact ⟨[], [m], rfl, .done, .one hstap hm (lt_half hhalf),
      fun _ h => absurd h List.not_mem_nil⟩
  · obtain ⟨packets', hsent, hok⟩ := bind_ok hok
    cases hok
    obtain ⟨hcarries, hends⟩ := send_nal_carries hm hsent
    exact ⟨[m], [], rfl, hcarries, .none, hends⟩

/-- One turn of the loop sends the units that waited and the new unit, in their order, up
to those that wait after it. -/
theorem pack_nal_carries {prevm prevm' : Pending} {held : List (List UInt8)}
    {packets : List Packet} (hheld : Held ctx prevm held)
    (hmax : ctx.stap_a_allowed = true → ctx.maxsz ≤ 65535) (hm : nal_unit m)
    (hok : pack_nal ctx ts prevm m fin = .ok (packets, prevm')) :
    ∃ gone held', held ++ [m] = gone ++ held' ∧ Carries none packets gone ∧
      Held ctx prevm' held' ∧ Marks fin packets prevm' := by
  unfold pack_nal at hok
  split at hok
  · rename_i hstap
    cases prevm with
    | none =>
      cases hheld
      exact hold_or_send_carries hstap hm hok
    | some prev =>
      obtain ⟨prevm, prevsz⟩ := prev
      dsimp only at hok
      split at hok
      · rename_i hfits
        obtain ⟨prevm₂, hconcat, hheld'⟩ := concat_holds hheld (hmax hstap) hfits
        rw [hconcat, ok_bind] at hok
        cases hok
        exact ⟨[], held ++ [m], rfl, .done, hheld', fun _ h => absurd h List.not_mem_nil⟩
      · obtain ⟨⟨packets', prevm₂⟩, hrest, hok⟩ := bind_ok hok
        cases hok
        obtain ⟨gone, held', heq, hcarries, hheld', hmarks⟩ :=
          hold_or_send_carries hstap hm hrest
        refine ⟨held ++ gone, held', by rw [heq, List.append_assoc],
          carries_append (held_carries hheld false) hcarries, hheld', ?_⟩
        unfold Marks at hmarks ⊢
        split
        · rename_i hsome
          rw [if_pos hsome] at hmarks
          exact unmarked_append (fun _ him => List.mem_singleton.mp him ▸ rfl) hmarks
        · rename_i hnone
          rw [if_neg hnone] at hmarks
          exact ends_cons rfl hmarks
  · rename_i hstap
    obtain ⟨packets', hsent, hok⟩ := bind_ok hok
    cases hok
    obtain ⟨hcarries, hends⟩ := send_nal_carries hm hsent
    cases hheld with
    | none => exact ⟨[m], [], rfl, hcarries, .none, hends⟩
    | one hstap' => exact absurd hstap' hstap
    | more hstap' => exact absurd hstap' hstap

/-- With room for fragments a turn of the loop ends, and no packet of it is too long. -/
theorem pack_nal_fits (ts : UInt32) (fin : Bool) {prevm : Pending}
    {held : List (List UInt8)} (h3 : 3 ≤ ctx.maxsz)
    (hheld : Held ctx prevm held) (hmax : ctx.stap_a_allowed = true → ctx.maxsz ≤ 65535)
    (hm : nal_unit m) :
    ∃ packets prevm', pack_nal ctx ts prevm m fin = .ok (packets, prevm') ∧
      ∀ im ∈ packets, (im.payload.length : Int) ≤ ctx.maxsz ∧ im.ts = ts := by
  have hhold : ∃ packets prevm', hold_or_send ctx ts m fin = .ok (packets, prevm') ∧
      ∀ im ∈ packets, (im.payload.length : Int) ≤ ctx.maxsz ∧ im.ts = ts := by
    unfold hold_or_send
    split
    · exact ⟨_, _, rfl, fun _ h => absurd h List.not_mem_nil⟩
    · obtain ⟨packets, hsent, hfits⟩ := send_nal_fits ts h3 hm
      rw [hsent]
      exact ⟨_, _, rfl, hfits⟩
  unfold pack_nal
  split
  · rename_i hstap
    cases prevm with
    | none => exact hhold
    | some prev =>
      obtain ⟨prevm, prevsz⟩ := prev
      dsimp only
      split
      · rename_i hfits
        obtain ⟨prevm₂, hconcat, -⟩ := concat_holds hheld (hmax hstap) hfits
        rw [hconcat]
        exact ⟨_, _, rfl, fun _ h => absurd h List.not_mem_nil⟩
      · obtain ⟨packets, prevm₂, hok, hfits⟩ := hhold
        rw [hok]
        refine ⟨_, _, rfl, ?_⟩
        intro im him
        rcases List.mem_cons.mp him with rfl | him
        · exact ⟨held_fits hheld, rfl⟩
        · exact hfits im him
  · obtain ⟨packets, hsent, hfits⟩ := send_nal_fits ts h3 hm
    rw [hsent]
    exact ⟨_, _, rfl, hfits⟩

end

/-! ## A frame -/

section

variable {ctx : Rfc3984Context} {ts : UInt32}

theorem pack_mode_1_carries (hmax : ctx.stap_a_allowed = true → ctx.maxsz ≤ 65535)
    {naluq : List (List UInt8)} (hnals : ∀ nal ∈ naluq, nal_unit nal) {prevm : Pending}
    {held : List (List UInt8)} {packets : List Packet} (hheld : Held ctx prevm held)
    (hok : rfc3984_pack_mode_1 ctx ts prevm naluq = .ok packets) :
    Carries none packets (held ++ naluq) ∧
      (prevm.isSome = true ∨ naluq ≠ [] → Ends true packets) := by
  induction naluq generalizing prevm held packets with
  | nil =>
    rw [List.append_nil]
    cases prevm with
    | none =>
      cases hheld
      cases hok
      refine ⟨.done, ?_⟩
      rintro (h | h)
      · cases h
      · exact absurd rfl h
    | some prev =>
      obtain ⟨prevm, prevsz⟩ := prev
      cases hok
      exact ⟨held_carries hheld true, fun _ => ends_one _ _ _⟩
  | cons m naluq ih =>
    have hm := hnals m List.mem_cons_self
    have hrestnals : ∀ nal ∈ naluq, nal_unit nal :=
      fun nal hnal => hnals nal (List.mem_cons_of_mem _ hnal)
    rw [rfc3984_pack_mode_1] at hok
    obtain ⟨⟨first, prevm'⟩, hfirst, hok⟩ := bind_ok hok
    obtain ⟨rest, hrest, hok⟩ := bind_ok hok
    cases hok
    obtain ⟨gone, held', heq, hcarries, hheld', hmarks⟩ := pack_nal_carries hheld hmax hm hfirst
    obtain ⟨hcarries', hends⟩ := ih hrestnals hheld' hrest
    constructor
    · have hall := carries_append hcarries hcarries'
      rwa [← List.append_assoc, ← heq, List.append_assoc, List.singleton_append] at hall
    · intro _
      unfold Marks at hmarks
      split at hmarks
      · rename_i hsome
        exact ends_append hmarks (hends (.inl hsome))
      · rename_i hnone
        cases naluq with
        | nil =>
          -- the last unit has the marker, and nothing waits
          have hprevm : prevm' = none := by simpa using hnone
          subst hprevm
          cases hrest
          rw [List.append_nil]
          exact hmarks
        | cons m' naluq => exact ends_append (unmarked_of_ends hmarks) (hends (.inr (by simp)))

theorem pack_mode_1_fits (ts : UInt32) (h3 : 3 ≤ ctx.maxsz)
    (hmax : ctx.stap_a_allowed = true → ctx.maxsz ≤ 65535)
    {naluq : List (List UInt8)} (hnals : ∀ nal ∈ naluq, nal_unit nal) {prevm : Pending}
    {held : List (List UInt8)} (hheld : Held ctx prevm held) :
    ∃ packets, rfc3984_pack_mode_1 ctx ts prevm naluq = .ok packets ∧
      ∀ im ∈ packets, (im.payload.length : Int) ≤ ctx.maxsz ∧ im.ts = ts := by
  induction naluq generalizing prevm held with
  | nil =>
    cases prevm with
    | none => exact ⟨[], rfl, fun _ h => absurd h List.not_mem_nil⟩
    | some prev =>
      obtain ⟨prevm, prevsz⟩ := prev
      refine ⟨_, rfl, ?_⟩
      intro im him
      cases List.mem_singleton.mp him
      exact ⟨held_fits hheld, rfl⟩
  | cons m naluq ih =>
    have hm := hnals m List.mem_cons_self
    obtain ⟨first, prevm', hfirst, hfits⟩ :=
      pack_nal_fits ts naluq.isEmpty h3 hheld hmax hm
    obtain ⟨-, held', -, -, hheld', -⟩ := pack_nal_carries hheld hmax hm hfirst
    obtain ⟨rest, hrest, hfits'⟩ :=
      ih (fun nal hnal => hnals nal (List.mem_cons_of_mem _ hnal)) hheld'
    rw [rfc3984_pack_mode_1, hfirst, ok_bind]
    dsimp only
    rw [hrest, ok_bind]
    refine ⟨_, rfl, ?_⟩
    intro im him
    rcases List.mem_append.mp him with him | him
    · exact hfits im him
    · exact hfits' im him

theorem pack_mode_0_carries {naluq : List (List UInt8)} (hnals : ∀ nal ∈ naluq, nal_unit nal) :
    Carries none (rfc3984_pack_mode_0 ts naluq) naluq := by
  induction naluq with
  | nil => exact .done
  | cons m naluq ih =>
    exact .single (hnals m List.mem_cons_self)
      (ih fun nal hnal => hnals nal (List.mem_cons_of_mem _ hnal))

/-- The packets of a frame carry its units, in each mode that sends them. -/
theorem pack_carries {naluq : List (List UInt8)} {packets : List Packet}
    (hmax : ctx.stap_a_allowed = true → ctx.maxsz ≤ 65535)
    (hnals : ∀ nal ∈ naluq, nal_unit nal) (hok : rfc3984_pack ctx naluq ts = .ok packets) :
    ∃ nals, Carries none packets nals ∧ ∀ nal ∈ nals, nal ∈ naluq := by
  unfold rfc3984_pack at hok
  split at hok
  · cases hok
    exact ⟨naluq, pack_mode_0_carries hnals, fun _ h => h⟩
  · split at hok
    · exact ⟨naluq, (pack_mode_1_carries hmax hnals .none hok).1, fun _ h => h⟩
    · cases hok
      exact ⟨[], .done, fun _ h => absurd h List.not_mem_nil⟩

end

/-! ## The whole stream received -/

/-- A receiver that gets all the packets has put out, or holds, exactly what it held
before and the units `nals`, in order. It holds none after a marker. -/
def Received (cur : Option (List UInt8)) (packets : List Packet) (nals : List (List UInt8)) :
    Prop :=
  ∀ ctx : Rfc3984Context, ctx.m = cur →
    ∃ ctx' out, unpack_all ctx packets = .ok (ctx', out) ∧ ctx'.m = none ∧
      out ++ ctx'.q = ctx.q ++ nals ∧ (Ends true packets → ctx'.q = [])

theorem ends_true_tail {im : Packet} {packets : List Packet} (h : Ends true (im :: packets)) :
    (packets = [] ∧ im.marker = true) ∨ Ends true packets := by
  obtain ⟨front, last, heq, hfront, hlast⟩ := h
  cases front with
  | nil =>
    obtain ⟨rfl, rfl⟩ := List.cons.inj heq
    exact .inl ⟨rfl, hlast⟩
  | cons im' front =>
    obtain ⟨rfl, rfl⟩ := List.cons.inj heq
    exact .inr ⟨front, last, rfl, fun im him => hfront im (List.mem_cons_of_mem _ him), hlast⟩

/-- One more packet at the front of what is received. -/
theorem received_cons {im : Packet} {packets : List Packet}
    {f : Option (List UInt8) → Option (List UInt8)}
    {g : Option (List UInt8) → List (List UInt8)}
    (h : ∀ ctx, receive ctx im.payload =
      .ok { ctx with m := f ctx.m, q := ctx.q ++ g ctx.m })
    {cur : Option (List UInt8)} {nals : List (List UInt8)}
    (hrest : Received (f cur) packets nals) : Received cur (im :: packets) (g cur ++ nals) := by
  intro ctx hm
  obtain ⟨ctx₁, out, hstep, hm₁, hq₁, hmarker⟩ := unpack_of_receive h ctx
  obtain ⟨ctx₂, rest, hall, hm₂, hq₂, hends⟩ := hrest ctx₁ (by rw [hm₁, hm])
  refine ⟨ctx₂, out ++ rest, ?_, hm₂, ?_, ?_⟩
  · rw [unpack_all, hstep, ok_bind]
    dsimp only
    rw [hall, ok_bind]
    rfl
  · rw [List.append_assoc, hq₂, ← List.append_assoc, hq₁, hm, List.append_assoc]
  · intro hend
    rcases ends_true_tail hend with ⟨rfl, hlast⟩ | hend
    · cases hall
      exact hmarker hlast
    · exact hends hend

theorem carried_units_received {cur : Option (List UInt8)} {packets : List Packet}
    {nals : List (List UInt8)} (h : Carries cur packets nals) : Received cur packets nals := by
  induction h with
  | done =>
    intro ctx hm
    refine ⟨ctx, [], rfl, hm, List.append_nil _ |>.symm, ?_⟩
    rintro ⟨front, last, heq, -⟩
    exact absurd heq.symm (List.append_ne_nil_of_right_ne_nil _ (List.cons_ne_nil _ _))
  | single him _ ih =>
    exact received_cons (f := fun _ => none) (g := fun _ => [_]) (receive_single him) ih
  | stapa him _ ih =>
    exact received_cons (f := id) (g := fun _ => _) (receive_stapa him) ih
  | start him _ ih =>
    exact received_cons (f := fun _ => some _) (g := fun _ => []) (receive_fragment him) ih
  | middle him _ ih =>
    exact received_cons (f := fun m => m.map (· ++ _)) (g := fun _ => []) (receive_fragment him) ih
  | last him _ ih =>
    exact received_cons (f := fun _ => none) (g := fun m => (m.map (· ++ _)).toList)
      (receive_fragment him) ih

/-! ## The law -/

/-- A frame that is packed in mode 1 is unpacked as it was: every unit, in order. No packet
is over the limit, and exactly the last packet has the marker. -/
theorem a_packed_frame_unpacks_to_its_units (ctx : Rfc3984Context) (hmode : ctx.mode = 1)
    (h3 : 3 ≤ ctx.maxsz) (hmax : ctx.maxsz ≤ 65535) (naluq : List (List UInt8))
    (hnals : ∀ nal ∈ naluq, nal_unit nal) (ts : UInt32) (rx : Rfc3984Context)
    (hq : rx.q = []) (hm : rx.m = none) :
    ∃ packets, rfc3984_pack ctx naluq ts = .ok packets ∧
      (∃ rx', unpack_all rx packets = .ok (rx', naluq) ∧ rx'.q = [] ∧ rx'.m = none) ∧
      (∀ im ∈ packets, (im.payload.length : Int) ≤ ctx.maxsz ∧ im.ts = ts) ∧
      (naluq = [] ∧ packets = [] ∨ Ends true packets) := by
  have hstap : ctx.stap_a_allowed = true → ctx.maxsz ≤ 65535 := fun _ => hmax
  obtain ⟨packets, hok, hfits⟩ := pack_mode_1_fits ts h3 hstap hnals .none
  obtain ⟨hcarries, hends⟩ := pack_mode_1_carries hstap hnals .none hok
  obtain ⟨rx', out, hall, hm', hout, hempty⟩ := carried_units_received hcarries rx hm
  have hlast : naluq = [] ∧ packets = [] ∨ Ends true packets := by
    cases naluq with
    | nil =>
      cases hok
      exact .inl ⟨rfl, rfl⟩
    | cons m naluq => exact .inr (hends (.inr (List.cons_ne_nil _ _)))
  have hq' : rx'.q = [] := by
    rcases hlast with ⟨-, rfl⟩ | hlast
    · cases hall
      exact hq
    · exact hempty hlast
  rw [hq', hq, List.append_nil, List.nil_append, List.nil_append] at hout
  subst hout
  refine ⟨packets, ?_, ⟨rx', hall, hq', hm'⟩, hfits, hlast⟩
  unfold rfc3984_pack
  rw [if_neg (by omega), if_pos hmode]
  exact hok

/-- A small unit and one over the limit, at a limit of 4 bytes with aggregation on. -/
theorem a_packed_frame_unpacks_to_its_units_example :
    ∃ packets, rfc3984_pack { rfc3984_init 4 with mode := 1, stap_a_allowed := true }
        [[0x68], [0x65, 1, 2, 3, 4]] 9 = .ok packets ∧
      (∃ rx', unpack_all (rfc3984_init 4) packets = .ok (rx', [[0x68], [0x65, 1, 2, 3, 4]]) ∧
        rx'.q = [] ∧ rx'.m = none) ∧
      (∀ im ∈ packets, (im.payload.length : Int) ≤ 4 ∧ im.ts = 9) ∧
      ([[0x68], [0x65, 1, 2, 3, 4]] = ([] : List (List UInt8)) ∧ packets = [] ∨
        Ends true packets) := by
  refine a_packed_frame_unpacks_to_its_units
    { rfc3984_init 4 with mode := 1, stap_a_allowed := true } rfl (by decide) (by decide)
    [[0x68], [0x65, 1, 2, 3, 4]] ?_ 9 (rfc3984_init 4) rfl rfl
  intro nal hnal
  simp only [List.mem_cons, List.not_mem_nil, or_false] at hnal
  rcases hnal with rfl | rfl
  · exact ⟨by decide, by decide, by decide⟩
  · exact ⟨by decide, by decide, by decide⟩

end zonekey_mcu.rfc3984
