-- The size that `atom_size` predicts for a tree, against the bytes that `atom_encode` writes.
-- The loop over a mixed array takes its end from the pointer of the other union member.
import ZonekeyMcu.Amf

namespace zonekey_mcu.amf

open big_endian

/-! ## The prediction -/

inductive SizeStop
  /-- `exit(-1)`. -/
  | exited
  /-- `data.Object.val` of a mixed array, where the count stands, is followed as a pointer. -/
  | wildPointer
  deriving DecidableEq

mutual

/-- The size is an `int`. -/
def atom_size : Atom → Except SizeStop Int32
  | .Number _ => .ok 9
  | .Boolean _ => .ok 2
  | .String val => .ok (Int32.ofNat (3 + val.length))
  | .Object val => do
    let size ← size_properties 1 val
    return size + 3
  -- the loop ends at data.Object.val->end()
  | .MixArray _ _ => .error .wildPointer
  | .Null => .ok 1
  | .Undefined => .ok 1
  | .EndOfObject | .unknown _ => .error .exited

/-- The loop over the properties of an object. -/
def size_properties : Int32 → List (List UInt8 × Atom) → Except SizeStop Int32
  | size, [] => .ok size
  | size, (key, value) :: kvs => do
    let size := size + Int32.ofNat (2 + key.length)
    let n ← atom_size value
    size_properties (size + n) kvs

end

mutual

/-- There is no mixed array in the tree. -/
def no_mix_array : Atom → Bool
  | .Object val => no_mix_properties val
  | .MixArray _ _ => false
  | _ => true

def no_mix_properties : List (List UInt8 × Atom) → Bool
  | [] => true
  | (_, value) :: kvs => no_mix_array value && no_mix_properties kvs

end

/-! ## Both recursions together -/

mutual

/-- The size of a tree that is written is the number of its bytes, as an `int`. -/
theorem atom_size_encode : ∀ (t : Atom) (bytes : List UInt8), atom_encode t = some bytes →
    atom_size t =
      if no_mix_array t then .ok (Int32.ofNat bytes.length) else .error .wildPointer
  | .Number _, bytes, henc => by
    obtain rfl := Option.some.inj henc
    rw [List.length_cons, length_bytes_of]
    rfl
  | .Boolean _, bytes, henc => by
    obtain rfl := Option.some.inj henc
    rfl
  | .String val, bytes, henc => by
    obtain rfl := Option.some.inj henc
    have hlen : (2 :: text_bytes val).length = 3 + val.length := by
      rw [List.length_cons, length_text_bytes]
      omega
    rw [hlen]
    rfl
  | .Object val, bytes, henc => by
    rw [atom_encode] at henc
    obtain ⟨body, hbody, henc⟩ := Option.bind_eq_some_iff.mp henc
    obtain rfl := Option.some.inj henc
    have hlen : (3 :: (body ++ [0, 0, 9])).length = 1 + body.length + 3 := by
      rw [List.length_cons, List.length_append, List.length_cons, List.length_cons,
        List.length_singleton]
      omega
    rw [atom_size, no_mix_array, hlen, size_properties_encode val 1 body hbody]
    by_cases hmix : no_mix_properties val = true
    · rw [if_pos hmix, if_pos hmix, Int32.ofNat_add, Int32.ofNat_add]
      rfl
    · rw [if_neg hmix, if_neg hmix]
      rfl
  | .MixArray _ _, _, _ => rfl
  | .Null, bytes, henc => by
    obtain rfl := Option.some.inj henc
    rfl
  | .Undefined, _, henc => nomatch henc
  | .EndOfObject, _, henc => nomatch henc
  | .unknown _, _, henc => nomatch henc

/-- The loop adds the bytes of the properties that are still to come. -/
theorem size_properties_encode : ∀ (kvs : List (List UInt8 × Atom)) (size : Int32)
    (body : List UInt8), encode_properties kvs = some body →
    size_properties size kvs =
      if no_mix_properties kvs then .ok (size + Int32.ofNat body.length)
      else .error .wildPointer
  | [], size, body, henc => by
    obtain rfl := Option.some.inj henc
    rw [no_mix_properties, if_pos rfl, List.length_nil, size_properties]
    simp
  | (key, value) :: kvs, size, body, henc => by
    rw [encode_properties] at henc
    obtain ⟨bytes, hbytes, henc⟩ := Option.bind_eq_some_iff.mp henc
    obtain ⟨body', hbody', henc⟩ := Option.bind_eq_some_iff.mp henc
    obtain rfl := Option.some.inj henc
    have hlen : (text_bytes key ++ bytes ++ body').length =
        2 + key.length + bytes.length + body'.length := by
      rw [List.length_append, List.length_append, length_text_bytes]
    rw [size_properties, atom_size_encode value bytes hbytes, no_mix_properties, hlen]
    by_cases hvalue : no_mix_array value = true
    · rw [if_pos hvalue, hvalue, Bool.true_and, ok_bind,
        size_properties_encode kvs _ body' hbody', Int32.ofNat_add (2 + key.length + bytes.length),
        Int32.ofNat_add (2 + key.length)]
      simp only [Int32.add_assoc]
    · rw [if_neg hvalue, Bool.eq_false_iff.mpr hvalue]
      rfl

end

/-! ## The law -/

theorem int_of_length_iff (n : Nat) : (Int32.ofNat n).toInt = n ↔ n < 2147483648 := by
  constructor
  · intro h
    have hlt := (Int32.ofNat n).toInt_lt
    omega
  · exact Int32.toInt_ofNat_of_lt

/-- The size of a tree that is written is predicted if and only if there is no mixed array in
the tree and the number of its bytes is an `int`. -/
theorem the_size_is_predicted_without_mixed_arrays {t : Atom} {bytes : List UInt8}
    (h : atom_encode t = some bytes) :
    (∃ n, atom_size t = .ok n ∧ n.toInt = bytes.length) ↔
      no_mix_array t = true ∧ bytes.length < 2147483648 := by
  rw [atom_size_encode t bytes h]
  by_cases hmix : no_mix_array t = true
  · rw [if_pos hmix, ← int_of_length_iff]
    simp [hmix]
  · rw [if_neg hmix]
    exact iff_of_false (not_exists_error _ _) fun h => hmix h.1

/-- The object `{a: null}`. -/
theorem the_size_is_predicted_without_mixed_arrays_example :
    atom_encode (.Object [([97], .Null)]) = some [3, 0, 1, 97, 5, 0, 0, 9] ∧
      ((∃ n, atom_size (.Object [([97], .Null)]) = .ok n ∧
          n.toInt = ([3, 0, 1, 97, 5, 0, 0, 9] : List UInt8).length) ↔
        no_mix_array (.Object [([97], .Null)]) = true ∧
          ([3, 0, 1, 97, 5, 0, 0, 9] : List UInt8).length < 2147483648) :=
  have h : atom_encode (.Object [([97], .Null)]) = some [3, 0, 1, 97, 5, 0, 0, 9] := by decide
  ⟨h, the_size_is_predicted_without_mixed_arrays h⟩

/-- A mixed array of one property is written and has no size. -/
theorem a_mixed_array_has_no_size :
    atom_encode (.MixArray 1 [([97], .Null)]) = some [8, 0, 0, 0, 1, 0, 1, 97, 5, 0, 0, 9] ∧
      ∀ n, atom_size (.MixArray 1 [([97], .Null)]) ≠ .ok n := by
  constructor
  · decide
  · intro n
    rw [atom_size]
    nofun

end zonekey_mcu.amf
