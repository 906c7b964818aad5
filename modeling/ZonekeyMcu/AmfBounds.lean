-- The AMF reader on bytes that nobody has looked at: which data it reads inside its bounds.
-- Only the object has a length test, and that one leaves out the two bytes of the length.
import ZonekeyMcu.Amf

namespace zonekey_mcu.amf

open big_endian

/-! ## Whole values and refusals -/

inductive Part
  | value
  /-- What stands behind the type of an object. -/
  | properties

/-- The bytes of a whole value of a type that has a decoder, or of whole properties up to the
one that holds the end marker. -/
inductive Whole : Part → List UInt8 → Prop
  | number {d : List UInt8} : d.length = 8 → Whole .value (0 :: d)
  | boolean (b : UInt8) : Whole .value [1, b]
  | string {s : List UInt8} : s.length < 65536 → Whole .value (2 :: text_bytes s)
  | object {body : List UInt8} : Whole .properties body → Whole .value (3 :: body)
  | null : Whole .value [5]
  | undefined : Whole .value [6]
  | end_of_object : Whole .value [9]
  | last {key : List UInt8} : key.length < 65536 → Whole .properties (text_bytes key ++ [9])
  | more {key value body : List UInt8} : key.length < 65536 → Whole .value value →
      value ≠ [9] → Whole .properties body →
      Whole .properties (text_bytes key ++ (value ++ body))

/-- An object, in any depth, comes to a key whose length is more than all bytes that are left,
those of the length included. -/
inductive Refused : Part → List UInt8 → Prop
  | object {body : List UInt8} : Refused .properties body → Refused .value (3 :: body)
  | key {next : List UInt8} : 2 ≤ next.length → next.length < value_of (next.take 2) →
      Refused .properties next
  | value {key next : List UInt8} : key.length < 65536 → Refused .value next →
      Refused .properties (text_bytes key ++ next)
  | more {key value next : List UInt8} : key.length < 65536 → Whole .value value →
      value ≠ [9] → Refused .properties next →
      Refused .properties (text_bytes key ++ (value ++ next))

/-! ## They are read and refused -/

/-- The reader uses exactly these bytes, whatever stands behind them. -/
def Reads : Part → List UInt8 → Prop
  | .value, bytes => ∀ (rest : List UInt8) (fuel : Nat), (bytes ++ rest).length ≤ fuel →
      ∃ t, decode_at (fuel + 1) (bytes ++ rest) (bytes ++ rest).length =
          .ok (some (t, some bytes.length)) ∧ (t.is_end_of_object = true ↔ bytes = [9])
  | .properties, bytes => ∀ (rest : List UInt8) (fuel used : Nat) (len : Int)
      (val : List (List UInt8 × Atom)), (bytes ++ rest).length ≤ fuel →
      len = used + (bytes ++ rest).length →
      ∃ kvs, decode_object (fuel + 1) (bytes ++ rest) len (bytes ++ rest).length used val =
          .ok (some (.Object kvs, some (used + bytes.length)))

/-- The reader refuses the data. -/
def Refuses : Part → List UInt8 → Prop
  | .value, data => ∀ fuel, data.length ≤ fuel →
      decode_at (fuel + 1) data data.length = .ok none
  | .properties, next => ∀ (fuel used : Nat) (len : Int) (val : List (List UInt8 × Atom)),
      next.length ≤ fuel → len = used + next.length →
      decode_object (fuel + 1) next len next.length used val = .ok none

theorem length_text_append (key next : List UInt8) :
    (text_bytes key ++ next).length = 2 + key.length + next.length := by
  rw [List.length_append, length_text_bytes]

theorem left_behind (value next : List UInt8) :
    (((value ++ next).length : Nat) : Int) - (value.length : Nat) = next.length := by
  rw [List.length_append]
  omega

/-- The reader of an object starts behind its type, with one byte used. -/
theorem decode_at_object (fuel : Nat) (body : List UInt8) :
    decode_at (fuel + 1) (3 :: body) (3 :: body).length =
      decode_object fuel body (3 :: body).length body.length 1 [] := by
  have hleft : ((3 :: body).length : Int) - 1 = body.length := left_behind [3] body
  rw [← hleft]
  rfl

/-- The loop goes on with the value behind a key, with as many bytes as there are. -/
theorem decode_object_key {key next : List UInt8} (hkey : key.length < 65536) (fuel used : Nat)
    {len : Int} (hlen : len = used + (text_bytes key ++ next).length)
    (val : List (List UInt8 × Atom)) :
    decode_object (fuel + 1) (text_bytes key ++ next) len (text_bytes key ++ next).length used
        val =
      (do
        match ← decode_at fuel next next.length with
        | none => return none
        | some (_, none) => .error .uninitialized
        | some (value, some u) =>
          if value.is_end_of_object then
            return some (.Object (val ++ [(key, value)]), some (used + (2 + key.length) + u))
          decode_object fuel (next.drop u) len (next.length - u)
            (used + (2 + key.length) + u) (val ++ [(key, value)])) := by
  have hsize := length_text_append key next
  rw [hsize] at hlen
  have hleft : ((2 + key.length + next.length : Nat) : Int) - (2 + key.length) = next.length := by
    omega
  have hturn : decode_object (fuel + 1) (text_bytes key ++ next) len
      (2 + key.length + next.length : Nat) used val = _ :=
    decode_object_text val hkey (by omega)
  rw [hleft] at hturn
  rw [hsize]
  exact hturn

/-- The loop goes on behind a value that was read. -/
theorem decode_object_more {key value next : List UInt8} (hkey : key.length < 65536)
    (hvalue : Reads .value value) (hne : value ≠ [9]) {fuel used : Nat} {len : Int}
    (hfuel : (text_bytes key ++ (value ++ next)).length ≤ fuel + 1)
    (hlen : len = used + (text_bytes key ++ (value ++ next)).length)
    (val : List (List UInt8 × Atom)) :
    ∃ val', decode_object (fuel + 2) (text_bytes key ++ (value ++ next)) len
        (text_bytes key ++ (value ++ next)).length used val =
      decode_object (fuel + 1) next len next.length (used + (2 + key.length) + value.length)
        val' := by
  rw [length_text_append] at hfuel
  obtain ⟨t, hread, hend⟩ := hvalue next fuel (by omega)
  refine ⟨val ++ [(key, t)], ?_⟩
  rw [decode_object_key hkey (fuel + 1) used hlen, hread, ok_bind]
  simp only [if_neg fun h => hne (hend.mp h), List.drop_left, left_behind]

theorem whole_reads {part : Part} {bytes : List UInt8} (h : Whole part bytes) :
    Reads part bytes := by
  induction h with
  | @number d hd =>
    intro rest fuel _
    refine ⟨.Number (UInt64.ofNat (value_of d)), ?_, by simp [Atom.is_end_of_object]⟩
    simp only [List.cons_append, decode_at, decode_number, read_append rest hd,
      List.length_cons, hd]
    rfl
  | boolean b =>
    intro rest fuel _
    exact ⟨.Boolean ([b] != [0]), rfl, by simp [Atom.is_end_of_object]⟩
  | @string s hs =>
    intro rest fuel _
    refine ⟨.String s, ?_, by simp [Atom.is_end_of_object]⟩
    simp only [List.cons_append, decode_at, decode_string_reads rest hs, List.length_cons,
      length_text_bytes]
    rw [Nat.add_comm 2]
    rfl
  | @object body _ ih =>
    intro rest fuel hfuel
    have hcount : ((3 :: (body ++ rest)).length : Int) = (1 : Nat) + (body ++ rest).length := by
      rw [List.length_cons]
      omega
    rw [List.cons_append] at hfuel ⊢
    obtain ⟨fuel, rfl⟩ : ∃ f, fuel = f + 1 := ⟨fuel - 1, by simp at hfuel; omega⟩
    obtain ⟨kvs, hread⟩ := ih rest fuel 1 _ [] (Nat.le_of_succ_le_succ hfuel) hcount
    refine ⟨.Object kvs, ?_, by simp [Atom.is_end_of_object]⟩
    rw [decode_at_object, hread, List.length_cons, Nat.add_comm 1]
  | null => exact fun rest fuel _ => ⟨.Null, rfl, by simp [Atom.is_end_of_object]⟩
  | undefined => exact fun rest fuel _ => ⟨.Undefined, rfl, by simp [Atom.is_end_of_object]⟩
  | end_of_object =>
    exact fun rest fuel _ => ⟨.EndOfObject, rfl, by simp [Atom.is_end_of_object]⟩
  | @last key hkey =>
    intro rest fuel used len val hfuel hlen
    rw [List.append_assoc] at hfuel hlen ⊢
    rw [length_text_append] at hfuel
    obtain ⟨fuel, rfl⟩ : ∃ f, fuel = f + 1 := ⟨fuel - 1, by simp at hfuel; omega⟩
    have hend : decode_at (fuel + 1) ([9] ++ rest) ([9] ++ rest).length =
        .ok (some (.EndOfObject, some 1)) := rfl
    refine ⟨val ++ [(key, .EndOfObject)], ?_⟩
    rw [decode_object_key hkey (fuel + 1) used hlen, hend, ok_bind]
    simp only [Atom.is_end_of_object, if_true, length_text_append, List.length_cons,
      List.length_nil, Nat.add_assoc]
    rfl
  | @more key value body hkey _ hne _ ihvalue ihbody =>
    intro rest fuel used len val hfuel hlen
    rw [List.append_assoc, List.append_assoc] at hfuel hlen ⊢
    obtain ⟨fuel, rfl⟩ : ∃ f, fuel = f + 1 :=
      ⟨fuel - 1, by rw [length_text_append] at hfuel; omega⟩
    obtain ⟨val', hmore⟩ := decode_object_more hkey ihvalue hne hfuel hlen val
    rw [length_text_append, List.length_append] at hfuel hlen
    obtain ⟨kvs, hrest⟩ := ihbody rest fuel (used + (2 + key.length) + value.length) len val'
      (by omega) (by omega)
    refine ⟨kvs, ?_⟩
    rw [hmore, hrest, length_text_append, List.length_append]
    simp only [Nat.add_assoc]

theorem refused_refuses {part : Part} {data : List UInt8} (h : Refused part data) :
    Refuses part data := by
  induction h with
  | @object body _ ih =>
    intro fuel hfuel
    obtain ⟨fuel, rfl⟩ : ∃ f, fuel = f + 1 := ⟨fuel - 1, by simp at hfuel; omega⟩
    rw [decode_at_object]
    exact ih fuel 1 _ [] (Nat.le_of_succ_le_succ hfuel) (by rw [List.length_cons]; omega)
  | @key next htwo hlong =>
    intro fuel used len val _ hlen
    have hsize : ntohs next = .ok (value_of (next.take 2)) := by
      rw [ntohs, read, if_pos htwo]
      rfl
    rw [decode_object, hsize, ok_bind, if_pos (by omega)]
    rfl
  | @value key next hkey _ ih =>
    intro fuel used len val hfuel hlen
    rw [length_text_append] at hfuel
    obtain ⟨fuel, rfl⟩ : ∃ f, fuel = f + 1 := ⟨fuel - 1, by omega⟩
    rw [decode_object_key hkey (fuel + 1) used hlen, ih fuel (by omega)]
    rfl
  | @more key value next hkey hvalue hne _ ih =>
    intro fuel used len val hfuel hlen
    obtain ⟨fuel, rfl⟩ : ∃ f, fuel = f + 1 :=
      ⟨fuel - 1, by rw [length_text_append] at hfuel; omega⟩
    obtain ⟨val', hmore⟩ := decode_object_more hkey (whole_reads hvalue) hne hfuel hlen val
    rw [length_text_append, List.length_append] at hfuel hlen
    rw [hmore]
    exact ih fuel _ len val' (by omega) (by omega)

/-! ## Nothing else is read or refused -/

/-- A result of the reader, told by the data; the reader of the properties has used some bytes
before. -/
def Explains (part : Part) (data : List UInt8) (used : Nat) :
    Option (Atom × Option Nat) → Prop
  | none => Refused part data
  | some (_, none) => True
  | some (t, some u) => ∃ bytes rest, data = bytes ++ rest ∧ u = used + bytes.length ∧
      Whole part bytes ∧ (t.is_end_of_object = true ↔ part = .value ∧ bytes = [9])

theorem read_ok {n : Nat} {p bytes : List UInt8} (h : read n p = .ok bytes) :
    bytes.length = n ∧ ∃ rest, p = bytes ++ rest := by
  unfold read at h
  split at h
  · rename_i hle
    obtain rfl := Except.ok.inj h
    exact ⟨List.length_take_of_le hle, p.drop n, (List.take_append_drop n p).symm⟩
  · cases h

theorem byte_eq {type b : UInt8} (h : type.toNat = b.toNat) : type = b := UInt8.toNat_inj.mp h

/-- What a read key and value, and what comes behind them, tell of the properties. -/
theorem explains_key {key next : List UInt8} (hkey : key.length < 65536) {fuel used : Nat}
    {len : Int} (hlen : len = used + (text_bytes key ++ next).length)
    {val : List (List UInt8 × Atom)} {o : Option (Atom × Option Nat)}
    (hvalue : ∀ o, decode_at fuel next next.length = .ok o → Explains .value next 0 o)
    (hrest : ∀ (next : List UInt8) (used : Nat) (len : Int) (val : List (List UInt8 × Atom)) o,
      len = used + next.length → decode_object fuel next len next.length used val = .ok o →
      Explains .properties next used o)
    (h : decode_object (fuel + 1) (text_bytes key ++ next) len (text_bytes key ++ next).length
      used val = .ok o) : Explains .properties (text_bytes key ++ next) used o := by
  rw [decode_object_key hkey fuel used hlen] at h
  obtain ⟨r, hr, h⟩ := bind_ok h
  have hexplained := hvalue r hr
  match r with
  | none =>
    obtain rfl := Except.ok.inj h
    exact .value hkey hexplained
  | some (_, none) => cases h
  | some (t, some u) =>
    obtain ⟨value, rest, rfl, hu, hwhole, hend⟩ := hexplained
    rw [Nat.zero_add] at hu
    subst hu
    dsimp only at h
    by_cases hmarker : t.is_end_of_object = true
    · rw [if_pos hmarker] at h
      obtain rfl := Except.ok.inj h
      obtain rfl := (hend.mp hmarker).2
      refine ⟨text_bytes key ++ [9], rest, (List.append_assoc _ _ _).symm, ?_, .last hkey, ?_⟩
      · rw [length_text_append, Nat.add_assoc]
      · exact iff_of_false (by simp [Atom.is_end_of_object]) fun h => nomatch h.1
    · rw [if_neg hmarker, List.drop_left] at h
      have hne : value ≠ [9] := fun heq => hmarker (hend.mpr ⟨rfl, heq⟩)
      rw [length_text_append, List.length_append] at hlen
      rw [left_behind] at h
      have hnext := hrest rest _ len _ o (by omega) h
      match o with
      | none => exact .more hkey hwhole hne hnext
      | some (_, none) => trivial
      | some (t', some u') =>
        obtain ⟨body, rest', rfl, hu', hbody, hend'⟩ := hnext
        refine ⟨text_bytes key ++ (value ++ body), rest', by simp only [List.append_assoc], ?_,
          .more hkey hwhole hne hbody, ?_⟩
        · rw [hu', length_text_append, List.length_append]
          omega
        · exact iff_of_false (fun h => nomatch (hend'.mp h).1) fun h => nomatch h.1

/-- The text behind a length that was read. -/
theorem text_of_size {p : List UInt8} {strlen : Nat} (h : ntohs p = .ok strlen) :
    (∃ s rest, p = text_bytes s ++ rest ∧ s.length = strlen ∧ strlen < 65536) ∨
      2 ≤ p.length ∧ strlen = value_of (p.take 2) ∧ p.length < 2 + strlen := by
  rcases ntohs_cases p with herror | ⟨htwo, hok⟩
  · rw [herror] at h
    cases h
  · rw [hok] at h
    obtain rfl := Except.ok.inj h
    rcases field_whole_or_cut htwo with ⟨s, rest, hp, hlt, hs⟩ | hcut
    · exact .inl ⟨s, rest, by rw [text_bytes, List.append_assoc]; exact hp, hs, hs ▸ hlt⟩
    · exact .inr ⟨htwo, rfl, hcut⟩

/-- The type byte of an object in front of its properties. -/
theorem explains_object {data : List UInt8} {o : Option (Atom × Option Nat)}
    (h : Explains .properties data 1 o) : Explains .value (3 :: data) 0 o := by
  match o with
  | none => exact .object h
  | some (_, none) => trivial
  | some (t, some u) =>
    obtain ⟨body, rest, rfl, hu, hbody, hend⟩ := h
    refine ⟨3 :: body, rest, rfl, ?_, .object hbody, ?_⟩
    · rw [hu, List.length_cons]
      omega
    · refine iff_of_false (fun h => ?_) fun h => by simp at h
      cases (hend.mp h).1

theorem explains_value {type : UInt8} {data : List UInt8} {fuel : Nat}
    {o : Option (Atom × Option Nat)}
    (hobject : ∀ o, decode_object fuel data (type :: data).length data.length 1 [] = .ok o →
      Explains .properties data 1 o)
    (h : decode_at (fuel + 1) (type :: data) (type :: data).length = .ok o) :
    Explains .value (type :: data) 0 o := by
  rw [decode_at] at h
  split at h
  · rename_i htype
    obtain rfl := byte_eq htype (b := 0)
    obtain ⟨r, hr, h⟩ := bind_ok h
    obtain ⟨d, hd, hr⟩ := bind_ok hr
    obtain rfl := Except.ok.inj hr
    obtain rfl := Except.ok.inj h
    obtain ⟨hlen, rest, rfl⟩ := read_ok hd
    refine ⟨0 :: d, rest, rfl, ?_, .number hlen, by simp [Atom.is_end_of_object]⟩
    rw [List.length_cons, hlen]
  · rename_i htype
    obtain rfl := byte_eq htype (b := 1)
    obtain ⟨r, hr, h⟩ := bind_ok h
    obtain ⟨d, hd, hr⟩ := bind_ok hr
    obtain rfl := Except.ok.inj hr
    obtain rfl := Except.ok.inj h
    obtain ⟨hlen, rest, rfl⟩ := read_ok hd
    obtain ⟨b, rfl⟩ := List.length_eq_one_iff.mp hlen
    exact ⟨[1, b], rest, rfl, rfl, .boolean b, by simp [Atom.is_end_of_object]⟩
  · rename_i htype
    obtain rfl := byte_eq htype (b := 2)
    obtain ⟨r, hr, h⟩ := bind_ok h
    obtain ⟨strlen, hsize, hr⟩ := bind_ok hr
    obtain ⟨str, hstr, hr⟩ := bind_ok hr
    obtain rfl := Except.ok.inj hr
    obtain rfl := Except.ok.inj h
    rcases text_of_size hsize with ⟨s, rest, rfl, rfl, hlt⟩ | ⟨htwo, -, hcut⟩
    · rw [drop_text, read_append rest rfl] at hstr
      obtain rfl := Except.ok.inj hstr
      refine ⟨2 :: text_bytes s, rest, rfl, ?_, .string hlt, ?_⟩
      · rw [List.length_cons, length_text_bytes]
        omega
      · exact iff_of_false (by simp [Atom.is_end_of_object]) fun h => by simp at h
    · obtain ⟨hlen, rest, hdrop⟩ := read_ok hstr
      have hlength := congrArg List.length hdrop
      rw [List.length_drop, List.length_append] at hlength
      omega
  · rename_i htype
    obtain rfl := byte_eq htype (b := 3)
    have hleft : ((3 :: data).length : Int) - 1 = data.length := left_behind [3] data
    rw [hleft] at h
    exact explains_object (hobject o h)
  · rename_i htype
    obtain rfl := byte_eq htype (b := 5)
    obtain rfl := Except.ok.inj h
    exact ⟨[5], data, rfl, rfl, .null, by simp [Atom.is_end_of_object]⟩
  · rename_i htype
    obtain rfl := byte_eq htype (b := 6)
    obtain rfl := Except.ok.inj h
    exact ⟨[6], data, rfl, rfl, .undefined, by simp [Atom.is_end_of_object]⟩
  · rename_i htype
    obtain rfl := byte_eq htype (b := 9)
    obtain rfl := Except.ok.inj h
    exact ⟨[9], data, rfl, rfl, .end_of_object, by simp [Atom.is_end_of_object]⟩
  · obtain rfl := Except.ok.inj h
    trivial

/-- Every result of the reader is told by the data. The induction is on the fuel, over the two
functions together. -/
theorem read_explained (fuel : Nat) :
    (∀ data o, decode_at fuel data data.length = .ok o → Explains .value data 0 o) ∧
      ∀ (next : List UInt8) (used : Nat) (len : Int) (val : List (List UInt8 × Atom)) o,
        len = used + next.length → decode_object fuel next len next.length used val = .ok o →
        Explains .properties next used o := by
  induction fuel with
  | zero => exact ⟨nofun, nofun⟩
  | succ fuel ih =>
    obtain ⟨ihvalue, ihrest⟩ := ih
    constructor
    · intro data o h
      cases data with
      | nil => cases h
      | cons type data =>
        refine explains_value (fun o h => ihrest data 1 _ [] o ?_ h) h
        rw [List.length_cons]
        omega
    · intro next used len val o hlen h
      obtain ⟨strlen, hsize, htail⟩ := bind_ok (by rw [decode_object] at h; exact h)
      rcases text_of_size hsize with ⟨key, rest, rfl, hlength, hkey⟩ | ⟨htwo, rfl, hcut⟩
      · exact explains_key (hlength ▸ hkey) hlen (fun o h => ihvalue rest o h) ihrest h
      · -- the key goes on behind the data
        by_cases hrefused : next.length < value_of (next.take 2)
        · rw [if_pos (by omega)] at htail
          obtain rfl := Except.ok.inj htail
          exact .key htwo hrefused
        · rw [if_neg (by omega)] at htail
          obtain ⟨key, hread, -⟩ := bind_ok htail
          obtain ⟨hlength, rest, hdrop⟩ := read_ok hread
          have htotal := congrArg List.length hdrop
          rw [List.length_drop, List.length_append] at htotal
          omega

/-! ## The law -/

/-- The reader fails, or has used at least one byte and at most all of them. -/
def InBounds (data : List UInt8) (result : Except Stop (Option (Atom × Option Nat))) : Prop :=
  result = .ok none ∨ ∃ t u, result = .ok (some (t, some u)) ∧ 1 ≤ u ∧ u ≤ data.length

theorem whole_ne {part : Part} {bytes : List UInt8} (h : Whole part bytes) :
    1 ≤ bytes.length := by
  cases h with
  | last => rw [length_text_append]; omega
  | more => rw [length_text_append]; omega
  | _ => exact Nat.le_add_left 1 _

/-- The reader stays in its bounds, on the bytes of any buffer, if and only if the buffer begins
with a whole value of the types that have a decoder, or an object in it announces a key that is
longer than all that is left. The length goes through an `int`. -/
theorem the_reader_stays_in_bounds_on_whole_values (data : List UInt8) :
    data.length < 2147483648 →
      (InBounds data (atom_decode data data.length) ↔
        (∃ bytes rest, data = bytes ++ rest ∧ Whole .value bytes) ∨ Refused .value data) := by
  intro _
  unfold atom_decode
  constructor
  · rintro (hnone | ⟨t, u, hsome, -, -⟩)
    · exact .inr ((read_explained _).1 data none hnone)
    · obtain ⟨bytes, rest, hdata, -, hwhole, -⟩ := (read_explained _).1 data _ hsome
      exact .inl ⟨bytes, rest, hdata, hwhole⟩
  · rintro (⟨bytes, rest, rfl, hwhole⟩ | hrefused)
    · obtain ⟨t, hread, -⟩ := whole_reads hwhole rest _ (Nat.le_refl _)
      refine .inr ⟨t, bytes.length, hread, whole_ne hwhole, ?_⟩
      rw [List.length_append]
      omega
    · exact .inl (refused_refuses hrefused data.length (Nat.le_refl _))

/-- An object that holds a boolean is read, and one with a key that is cut short is refused. -/
theorem the_reader_stays_in_bounds_on_whole_values_example :
    InBounds [3, 0, 1, 97, 1, 1, 0, 0, 9] (atom_decode [3, 0, 1, 97, 1, 1, 0, 0, 9] 9) ∧
      InBounds [3, 0, 9, 97] (atom_decode [3, 0, 9, 97] 4) := by
  have hkey : ([97] : List UInt8).length < 65536 := by decide
  have hnokey : ([] : List UInt8).length < 65536 := by decide
  have hlast : Whole .properties [0, 0, 9] := .last hnokey
  have hbody : Whole .properties [0, 1, 97, 1, 1, 0, 0, 9] :=
    .more hkey (.boolean 1) (by decide) hlast
  constructor
  · exact (the_reader_stays_in_bounds_on_whole_values [3, 0, 1, 97, 1, 1, 0, 0, 9]
      (by decide)).mpr (.inl ⟨_, [], (List.append_nil _).symm, .object hbody⟩)
  · exact (the_reader_stays_in_bounds_on_whole_values [3, 0, 9, 97] (by decide)).mpr
      (.inr (.object (.key (by decide) (by decide))))

/-- The single byte of a number is read on behind its end. -/
theorem a_cut_number_is_read_behind_its_end : ¬ InBounds [0] (atom_decode [0] 1) := by
  have hread : atom_decode [0] 1 = .error .outOfBounds := rfl
  rw [hread]
  rintro (h | ⟨_, _, h, -, -⟩)
  · cases h
  · cases h

end zonekey_mcu.amf
