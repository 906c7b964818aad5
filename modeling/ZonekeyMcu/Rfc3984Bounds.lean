-- The receiver on any payload: where it reads behind the end of a packet. The sizes in an
-- aggregation packet are tested against its end, but not that there are two bytes for a size.
import ZonekeyMcu.Rfc3984Stream

namespace zonekey_mcu.rfc3984

open big_endian

/-! ## Aggregation packets -/

/-- Whole units with their sizes, and one byte more. -/
def OneByteLeft (body : List UInt8) : Prop :=
  ∃ nals b, (∀ nal ∈ nals, nal.length < 65536) ∧ body = stapa_body nals ++ [b]

/-- Behind a whole unit the same byte is left. -/
theorem oneByteLeft_unit {nal : List UInt8} (hnal : nal.length < 65536) (rest : List UInt8) :
    OneByteLeft (put_nal_size nal.length ++ (nal ++ rest)) ↔ OneByteLeft rest := by
  have hsize : (put_nal_size nal.length).length = 2 := length_bytes_of 2 _
  constructor
  · rintro ⟨nals, b, hnals, heq⟩
    cases nals with
    | nil =>
      have hlen := congrArg List.length heq
      rw [List.length_append, hsize] at hlen
      simp [stapa_body] at hlen
      omega
    | cons nal' nals =>
      obtain ⟨hnal', hnals⟩ := List.forall_mem_cons.mp hnals
      rw [stapa_body_cons, List.append_assoc, List.append_assoc] at heq
      obtain ⟨hhead, htail⟩ := List.append_inj heq (hsize.trans (length_bytes_of 2 _).symm)
      have hlen := congrArg value_of hhead
      unfold put_nal_size at hlen
      rw [value_of_bytes_of_lt hnal, value_of_bytes_of_lt hnal'] at hlen
      exact ⟨nals, b, hnals, (List.append_inj htail hlen).2⟩
  · rintro ⟨nals, b, hnals, rfl⟩
    refine ⟨nal :: nals, b, List.forall_mem_cons.mpr ⟨hnal, hnals⟩, ?_⟩
    simp only [stapa_body_cons, List.append_assoc]

/-- The size that stands at the front of a body whose first unit is cut off. -/
theorem not_oneByteLeft_cut {body : List UInt8} (htwo : 2 ≤ body.length)
    (hcut : body.length < 2 + value_of (body.take 2)) : ¬ OneByteLeft body := by
  rintro ⟨nals, b, hnals, rfl⟩
  cases nals with
  | nil => simp [stapa_body] at htwo
  | cons nal nals =>
    have hnal := hnals nal List.mem_cons_self
    have htake : (stapa_body (nal :: nals) ++ [b]).take 2 = put_nal_size nal.length := by
      rw [stapa_body_cons, List.append_assoc]
      exact List.take_left' (length_bytes_of 2 _)
    rw [htake, put_nal_size, value_of_bytes_of_lt hnal, stapa_body_cons] at hcut
    simp only [List.length_append, put_nal_size, length_bytes_of] at hcut
    omega

theorem split_stapa_cut {body : List UInt8} (htwo : 2 ≤ body.length)
    (hcut : body.length < 2 + value_of (body.take 2)) (fuel : Nat) :
    split_stapa (fuel + 1) body = .ok [] := by
  match body, htwo with
  | b0 :: b1 :: p, _ =>
    rw [split_stapa]
    simp only [List.length_cons, List.take_succ_cons, List.take_zero] at hcut
    exact if_pos (by omega)

/-- The loop reads in bounds and ends unless one byte is left for a size. Its units lie in the
body. -/
theorem split_stapa_bounds (fuel : Nat) {body : List UInt8} (hfuel : body.length ≤ fuel) :
    (OneByteLeft body → split_stapa fuel body = .error .outOfBounds) ∧
      (¬ OneByteLeft body → ∃ nals, split_stapa fuel body = .ok nals ∧
        ∀ nal ∈ nals, nal <:+: body) := by
  induction fuel generalizing body with
  | zero =>
    obtain rfl := List.eq_nil_of_length_eq_zero (Nat.le_zero.mp hfuel)
    refine ⟨?_, fun _ => ⟨[], rfl, nofun⟩⟩
    rintro ⟨nals, b, -, heq⟩
    simp at heq
  | succ fuel ih =>
    match body, hfuel with
    | [], _ =>
      refine ⟨?_, fun _ => ⟨[], rfl, nofun⟩⟩
      rintro ⟨nals, b, -, heq⟩
      simp at heq
    | [b], _ => exact ⟨fun _ => rfl, fun h => absurd ⟨[], b, nofun, rfl⟩ h⟩
    | b0 :: b1 :: p, hfuel =>
      have htwo : 2 ≤ (b0 :: b1 :: p).length := by simp
      rcases field_whole_or_cut htwo with ⟨nal, rest, hbody, hnal, -⟩ | hcut
      · have hlen : (b0 :: b1 :: p).length = 2 + (nal.length + rest.length) := by
          rw [hbody, List.length_append, List.length_append, length_bytes_of]
        obtain ⟨hleft, hnone⟩ := @ih rest (by omega)
        have hiff := oneByteLeft_unit hnal rest
        have hturn := split_stapa_unit hnal rest fuel
        rw [put_nal_size] at hiff hturn
        rw [hbody, hiff, hturn]
        constructor
        · intro h
          rw [hleft h, error_bind]
        · intro h
          obtain ⟨nals, hnals, hin⟩ := hnone h
          refine ⟨nal :: nals, by rw [hnals]; rfl, List.forall_mem_cons.mpr ⟨?_, ?_⟩⟩
          · exact ⟨bytes_of 2 nal.length, rest, List.append_assoc _ _ _⟩
          · intro nal' hnal'
            refine (hin nal' hnal').trans (List.IsSuffix.isInfix ?_)
            exact (List.suffix_append nal rest).trans (List.suffix_append _ _)
      · exact ⟨fun h => absurd h (not_oneByteLeft_cut htwo hcut),
          fun _ => ⟨[], split_stapa_cut htwo hcut fuel, nofun⟩⟩

/-! ## What a packet does to the queue -/

/-- Every packet that has its header bytes, and leaves no single byte for a size, is received.
The units of an aggregation packet lie in it. -/
theorem receive_bounds (h : UInt8) (body : List UInt8)
    (hstap : nal_header_get_type h = TYPE_STAP_A → ¬ OneByteLeft body)
    (hfua : nal_header_get_type h = TYPE_FU_A → body ≠ []) :
    ∃ (f : Option (List UInt8) → Option (List UInt8))
      (g : Option (List UInt8) → List (List UInt8)),
      (∀ ctx, receive ctx (h :: body) =
        .ok { ctx with m := f ctx.m, q := ctx.q ++ g ctx.m }) ∧
      ∀ m, nal_header_get_type h = TYPE_STAP_A → ∀ nal ∈ g m, nal <:+: body := by
  by_cases hs : nal_header_get_type h = TYPE_STAP_A
  · obtain ⟨nals, hnals, hin⟩ :=
      (split_stapa_bounds (h :: body).length (Nat.le_succ body.length)).2 (hstap hs)
    refine ⟨id, fun _ => nals, fun ctx => ?_, fun _ _ => hin⟩
    unfold receive header
    rw [ok_bind, if_pos hs, List.tail_cons, hnals, ok_bind]
    rfl
  · by_cases hf : nal_header_get_type h = TYPE_FU_A
    · obtain ⟨fu, body, rfl⟩ := List.exists_cons_of_ne_nil (hfua hf)
      have hfragment : Fragment (h :: fu :: body) (fu >>> 7 != 0) ((fu >>> 6) &&& 1 != 0)
          (nal_header_init (nal_header_get_nri h) (nal_header_get_type fu)) body :=
        ⟨h, fu, rfl, hf, rfl, rfl, rfl⟩
      exact ⟨fun m => if (fu >>> 6) &&& 1 != 0 then none else if fu >>> 7 != 0 then
          some (nal_header_init (nal_header_get_nri h) (nal_header_get_type fu) :: body)
          else m.map (· ++ body),
        fun m => if (fu >>> 6) &&& 1 != 0 then (if fu >>> 7 != 0 then
          some (nal_header_init (nal_header_get_nri h) (nal_header_get_type fu) :: body)
          else m.map (· ++ body)).toList else [],
        receive_fragment hfragment, fun _ hs' => absurd hs' hs⟩
    · refine ⟨fun _ => none, fun _ => [h :: body], fun ctx => ?_, fun _ hs' => absurd hs' hs⟩
      unfold receive header
      rw [ok_bind, if_neg hs, if_neg hf]
      rfl

/-- The other packets are read behind their end. -/
theorem receive_error (ctx : Rfc3984Context) {h : UInt8} {body : List UInt8}
    (hbad : nal_header_get_type h = TYPE_STAP_A ∧ OneByteLeft body ∨
      nal_header_get_type h = TYPE_FU_A ∧ body = []) :
    receive ctx (h :: body) = .error .outOfBounds := by
  unfold receive header
  rw [ok_bind]
  rcases hbad with ⟨hs, hleft⟩ | ⟨hf, rfl⟩
  · have herror := (split_stapa_bounds (h :: body).length (Nat.le_succ body.length)).1 hleft
    rw [if_pos hs, List.tail_cons, herror, error_bind]
  · have hs : nal_header_get_type h ≠ TYPE_STAP_A := by
      rw [hf]
      decide
    rw [if_neg hs, if_pos hf]
    rfl

/-! ## The law -/

/-- A packet of any state is unpacked inside its payload, and the units that it adds to the
queue lie inside it if it is an aggregation packet, if and only if it is no aggregation packet
with one byte left for a size, and no fragment without its second header byte. -/
theorem a_packet_is_unpacked_unless_a_byte_is_missing (ctx : Rfc3984Context) (h : UInt8)
    (body : List UInt8) (ts : UInt32) (marker : Bool) :
    (∃ ctx' out nals, rfc3984_unpack ctx ⟨h :: body, ts, marker⟩ = .ok (ctx', out) ∧
        out ++ ctx'.q = ctx.q ++ nals ∧
        (nal_header_get_type h = TYPE_STAP_A → ∀ nal ∈ nals, nal <:+: body)) ↔
      ¬ (nal_header_get_type h = TYPE_STAP_A ∧ OneByteLeft body) ∧
        ¬ (nal_header_get_type h = TYPE_FU_A ∧ body = []) := by
  constructor
  · rintro ⟨ctx', out, nals, hunpack, -⟩
    obtain ⟨ctx₁, hreceive, -⟩ := bind_ok hunpack
    rw [← not_or]
    intro hbad
    rw [receive_error _ hbad] at hreceive
    cases hreceive
  · rintro ⟨hstap, hfua⟩
    obtain ⟨f, g, hreceive, hin⟩ := receive_bounds h body (fun hs hleft => hstap ⟨hs, hleft⟩)
      fun hf hnil => hfua ⟨hf, hnil⟩
    obtain ⟨ctx', out, hunpack, -, hq, -⟩ :=
      @unpack_of_receive ⟨h :: body, ts, marker⟩ f g hreceive ctx
    exact ⟨ctx', out, g ctx.m, hunpack, hq, hin ctx.m⟩

/-- An aggregation packet of two bytes. -/
theorem a_single_byte_is_read_as_a_size :
    rfc3984_unpack (rfc3984_init 1440) ⟨[0x18, 0], 0, false⟩ = .error .outOfBounds := by
  decide

end zonekey_mcu.rfc3984
