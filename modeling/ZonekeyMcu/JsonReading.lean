-- The parser reads back what the printer wrote: strings, then numbers, then documents.
import ZonekeyMcu.JsonPrinting

namespace zonekey_mcu.cjson

/-! ## Strings -/

theorem string_len_plain {c : UInt8} (quote : c ≠ 34) (backslash : c ≠ 92) (ptr : Text) :
    string_len (c :: ptr) = (string_len ptr).map (· + 1) := by
  rw [string_len.eq_def]
  simp [quote, backslash]

theorem string_len_pair (e : UInt8) (ptr : Text) :
    string_len (92 :: e :: ptr) = (string_len ptr).map (· + 1) := by
  rw [string_len.eq_def]
  simp

/-- What holds of the sixteen digits holds of each byte below sixteen. -/
theorem forall_low (p : UInt8 → Prop) (h : ∀ n : Fin 16, p (UInt8.ofNat n)) {d : UInt8}
    (hd : d < 16) : p d := by
  have hlt : d.toNat < 16 := UInt8.lt_iff_toNat_lt.1 hd
  simpa using h ⟨d.toNat, hlt⟩

theorem hex_plain {d : UInt8} (h : d < 16) : hex d ≠ 34 ∧ hex d ≠ 92 :=
  forall_low (fun d => hex d ≠ 34 ∧ hex d ≠ 92) (by decide) h

theorem nibbles_lt (c : UInt8) : c / 16 < 16 ∧ c % 16 < 16 := by
  have h := c.toNat_lt
  constructor
  · rw [UInt8.lt_iff_toNat_lt, UInt8.toNat_div]
    simp
    omega
  · rw [UInt8.lt_iff_toNat_lt, UInt8.toNat_mod]
    simp
    omega

/-- The loop that counts gives each character one byte or more. -/
theorem string_len_quoted (str : Text) (rest : Text) :
    ∃ len, string_len (str.flatMap escape ++ 34 :: rest) = .ok len ∧ str.length ≤ len := by
  induction str with
  | nil => exact ⟨0, by rw [List.flatMap_nil, List.nil_append, string_len.eq_def]; rfl, le_rfl⟩
  | cons c str ih =>
    obtain ⟨len, hlen, hle⟩ := ih
    have h := escape_escaped c
    rw [List.flatMap_cons, List.append_assoc]
    generalize escape c = text, escape_room c = room at h
    cases h with
    | plain _ quote backslash =>
      exact ⟨len + 1, by simp [string_len_plain quote backslash, hlen, Except.map], by simpa⟩
    | pair e => exact ⟨len + 1, by simp [string_len_pair, hlen, Except.map], by simpa⟩
    | code =>
      refine ⟨len + 5, ?_, by simp; omega⟩
      have h1 := hex_plain (nibbles_lt c).1
      have h2 := hex_plain (nibbles_lt c).2
      simp [string_len_pair, string_len_plain, h1, h2, hlen, Except.map]

theorem hex_digit_hex {d : UInt8} (h : d < 16) : hex_digit (hex d) = some d.toUInt32 :=
  forall_low (fun d => hex_digit (hex d) = some d.toUInt32) (by decide) h

theorem sscanf_4x_low {a b : UInt8} (ha : a < 16) (hb : b < 16) (ptr : Text) :
    sscanf_4x (48 :: 48 :: hex a :: hex b :: ptr) = some (a.toUInt32 * 16 + b.toUInt32) := by
  have hzero : hex_digit 48 = some 0 := rfl
  simp [sscanf_4x, hex_loop, hex_digit_hex ha, hex_digit_hex hb, hzero]

theorem nibbles_eq (c : UInt8) : (c / 16).toUInt32 * 16 + (c % 16).toUInt32 = c.toUInt32 := by
  have h := c.toNat_lt
  apply UInt32.toNat_inj.1
  simp
  omega

theorem utf8_low {uc : UInt32} (h : uc < 0x80) : utf8 uc = ([uc.toUInt8], uc) := by
  have hlen : utf8_length uc = 1 := if_pos h
  rw [utf8, hlen]
  simp [utf8_loop, firstByteMark]

theorem transcode_low (codes : Codes) {c : UInt8} (h : c < 32) (hzero : c ≠ 0) (ptr : Text) :
    transcode codes (48 :: 48 :: hex (c / 16) :: hex (c % 16) :: ptr) =
      .ok ([c], ⟨some c.toUInt32, codes.uc2⟩, ptr) := by
  have hscan := sscanf_4x_low (nibbles_lt c).1 (nibbles_lt c).2 ptr
  have hlt : c.toNat < 32 := UInt8.lt_iff_toNat_lt.1 h
  have hne : c.toUInt32 ≠ 0 := fun he => hzero (UInt8.toNat_inj.1 (by
    simpa using congrArg UInt32.toNat he))
  have hlow : c.toUInt32 < 0x80 := by
    rw [UInt32.lt_iff_toNat_lt]
    simp
    omega
  have hsur : ¬(0xDC00 ≤ c.toUInt32 ∧ c.toUInt32 ≤ 0xDFFF ∨ c.toUInt32 = 0) := by
    rintro (⟨hge, -⟩ | he)
    · rw [UInt32.le_iff_toNat_le] at hge
      simp at hge
      omega
    · exact hne he
  have hpair : ¬(0xD800 ≤ c.toUInt32 ∧ c.toUInt32 ≤ 0xDBFF) := by
    rintro ⟨hge, -⟩
    rw [UInt32.le_iff_toNat_le] at hge
    simp at hge
    omega
  rw [nibbles_eq] at hscan
  unfold transcode
  rw [if_neg (by simp), hscan]
  simp only [Option.orElse_eq_orElse, Option.orElse_eq_or, Option.some_or, if_neg hsur,
    if_neg hpair, utf8_low hlow]
  simp

theorem string_loop_quoted (str rest : Text) (hzero : 0 ∉ str) :
    ∀ (fuel : Nat) (codes : Codes), (str.flatMap escape).length < fuel →
      string_loop fuel codes (str.flatMap escape ++ 34 :: rest) = .ok (str, 34 :: rest) := by
  induction str with
  | nil =>
    rintro (_ | fuel) codes hfuel
    · simp at hfuel
    · simp [string_loop]
  | cons c str ih =>
    rintro (_ | fuel) codes hfuel
    · omega
    have h := escape_escaped c
    have hc : c ≠ 0 := fun he => hzero (by simp [he])
    have ih := ih (fun hmem => hzero (List.mem_cons_of_mem c hmem)) fuel
    rw [List.flatMap_cons, List.append_assoc]
    rw [List.flatMap_cons, List.length_append] at hfuel
    generalize escape c = text, escape_room c = room at h hfuel
    cases h with
    | plain _ quote backslash =>
      simp only [List.length_cons, List.length_nil] at hfuel
      simp [string_loop, quote, backslash, ih codes (by omega)]
    | pair e he back =>
      simp only [List.length_cons, List.length_nil] at hfuel
      simp [string_loop, he, ih codes (by omega), back]
    | code hlow =>
      simp only [List.length_cons, List.length_nil] at hfuel
      have htrans := transcode_low codes hlow hc (str.flatMap escape ++ 34 :: rest)
      simp only [List.cons_append, List.nil_append]
      rw [string_loop]
      simp [htrans, ih ⟨some c.toUInt32, codes.uc2⟩ (by omega)]

/-- A string is read back as it was printed. -/
theorem parse_string_quoted (str rest : Text) (hzero : 0 ∉ str) :
    parse_string (quoted str ++ rest) = .ok (.found str rest) := by
  obtain ⟨len, hlen, hle⟩ := string_len_quoted str rest
  have hloop := string_loop_quoted str rest hzero
    ((str.flatMap escape ++ 34 :: rest).length + 1) ⟨none, none⟩ (by simp)
  have hfill : fill (len + 1) str = .ok str := fill_ok (by omega)
  simp only [quoted, List.cons_append, List.append_assoc, List.nil_append, parse_string]
  rw [hlen]
  simp only [ok_bind, hloop, hfill]
  rfl

/-! ## Numbers -/

def digits (n : Nat) (ds : Text) : Nat := ds.foldl (fun n c => n * 10 + (c - 48).toNat) n

theorem digit_loop_digits (ds rest : Text) (h : ∀ c ∈ ds, is_digit c = true)
    (hrest : ∀ c ∈ rest.head?, is_digit c = false) (n : Nat) :
    digit_loop n (ds ++ rest) = (digits n ds, rest) := by
  induction ds generalizing n with
  | nil =>
    cases rest with
    | nil => rfl
    | cons c rest => simp [digit_loop, digits, hrest c (by simp)]
  | cons c ds ih =>
    rw [List.cons_append, digit_loop, if_pos (h c (by simp)),
      ih fun d hd => h d (List.mem_cons_of_mem c hd)]
    rfl

def exponent_value : Option (Bool × Text) → Int
  | none => 0
  | some (negative, ds) => digits 0 ds * (if negative then -1 else 1)

/-- The number that the parser makes of a numeral. -/
def Numeral.value (n : Numeral) : Decimal where
  negative := n.negative
  n := digits (digits 0 n.whole) n.fraction
  scale := -n.fraction.length
  subscale := exponent_value n.exponent

/-- A text that does not go on with a number. -/
def Apart (rest : Text) : Prop :=
  ∀ c ∈ rest.head?, is_digit c = false ∧ c ≠ 46 ∧ c ≠ 101 ∧ c ≠ 69

theorem parse_whole_digits (n : Numeral) (rest : Text)
    (hrest : ∀ c ∈ rest.head?, is_digit c = false) :
    parse_whole (n.whole ++ rest) = (digits 0 n.whole, rest) := by
  rcases n.lead with hzero | ⟨c, t, hct, hc⟩
  · have hno : ¬∃ c ∈ rest.head?, (49 : UInt8) ≤ c ∧ c ≤ 57 := by
      rintro ⟨c, hc, hlo, hhi⟩
      have := hrest c hc
      simp only [is_digit, Bool.and_eq_false_iff, decide_eq_false_iff_not,
        UInt8.le_iff_toNat_le] at this hlo hhi
      simp at this hlo hhi
      omega
    simp only [hzero, parse_whole, List.cons_append, List.nil_append, List.head?_cons, if_true,
      List.tail_cons, if_neg hno]
    rfl
  · have hdigit := n.whole_digits c (by simp [hct])
    have hne : ¬(n.whole ++ rest).head? = some 48 := by
      rw [hct]
      rintro ⟨⟩
      simp at hc
    have hyes : ∃ c ∈ (n.whole ++ rest).head?, (49 : UInt8) ≤ c ∧ c ≤ 57 := by
      refine ⟨c, by simp [hct], hc, ?_⟩
      simp only [is_digit, Bool.and_eq_true, decide_eq_true_eq] at hdigit
      exact hdigit.2
    simp only [parse_whole, if_neg hne, if_pos hyes]
    exact digit_loop_digits n.whole rest n.whole_digits hrest 0

theorem parse_fraction_digits (fraction rest : Text) (h : ∀ c ∈ fraction, is_digit c = true)
    (hrest : ∀ c ∈ rest.head?, is_digit c = false ∧ c ≠ 46) (n : Nat) :
    parse_fraction n (fraction_text fraction ++ rest) =
      (digits n fraction, -(fraction.length : Int), rest) := by
  cases fraction with
  | nil =>
    have hno : ¬(rest.head? = some 46 ∧ ∃ c ∈ rest.tail.head?, is_digit c = true) :=
      fun ⟨hdot, _⟩ => (hrest 46 hdot).2 rfl
    simp only [fraction_text, if_true, List.nil_append, parse_fraction, if_neg hno]
    rfl
  | cons c fraction =>
    have hloop := digit_loop_digits (c :: fraction) rest h (fun c hc => (hrest c hc).1) n
    have hyes : (46 :: (c :: fraction ++ rest)).head? = some 46 ∧
        ∃ d ∈ (46 :: (c :: fraction ++ rest)).tail.head?, is_digit d = true :=
      ⟨rfl, c, rfl, h c (by simp)⟩
    simp only [fraction_text, List.cons_ne_nil, if_false, List.cons_append, parse_fraction] at *
    rw [if_pos hyes]
    have hscale : (rest.length : Int) - (c :: (fraction ++ rest)).length =
        -((c :: fraction).length : Int) := by
      simp only [List.length_cons, List.length_append]
      omega
    simp only [List.tail_cons, hloop, hscale]

theorem parse_exponent_digits (e : Option (Bool × Text)) (rest : Text)
    (h : ∀ p ∈ e, ∀ c ∈ p.2, is_digit c = true) (hrest : Apart rest) :
    parse_exponent (exponent_text e ++ rest) = (exponent_value e, rest) := by
  rcases e with _ | ⟨negative, ds⟩
  · have hno : ¬(rest.head? = some 101 ∨ rest.head? = some 69) := by
      rintro (he | he)
      · exact (hrest _ he).2.2.1 rfl
      · exact (hrest _ he).2.2.2 rfl
    rw [exponent_text, List.nil_append, parse_exponent, if_neg hno]
    rfl
  · have hloop := digit_loop_digits ds rest (h _ rfl) (fun c hc => (hrest c hc).1) 0
    cases negative <;> simp [exponent_text, exponent_value, parse_exponent, hloop]

theorem Numeral.whole_cons (n : Numeral) : ∃ c t, n.whole = c :: t ∧ is_digit c = true := by
  obtain ⟨c, t, hct⟩ : ∃ c t, n.whole = c :: t := by
    rcases n.lead with h | ⟨c, t, h, -⟩
    · exact ⟨_, _, h⟩
    · exact ⟨c, t, h⟩
  exact ⟨c, t, hct, n.whole_digits c (by simp [hct])⟩

theorem Numeral.text_cons (n : Numeral) :
    ∃ c u, n.text = c :: u ∧ (c = 45 ∨ is_digit c = true) := by
  obtain ⟨c, t, hct, hdigit⟩ := n.whole_cons
  unfold Numeral.text
  by_cases hneg : n.negative = true
  · exact ⟨45, _, by rw [if_pos hneg]; rfl, .inl rfl⟩
  · exact ⟨c, _, by rw [if_neg hneg, hct]; rfl, .inr hdigit⟩

theorem parse_sign_text (n : Numeral) (rest : Text) :
    parse_sign (n.text ++ rest) = (n.negative, n.whole ++
      (fraction_text n.fraction ++ (exponent_text n.exponent ++ rest))) := by
  obtain ⟨c, t, hct, hdigit⟩ := n.whole_cons
  have hc : c ≠ 45 := by
    rintro rfl
    cases hdigit
  unfold Numeral.text
  cases n.negative
  · simp [hct, parse_sign, hc]
  · simp [parse_sign]

/-- A number is read back as it was printed. -/
theorem parse_number_text (n : Numeral) (rest : Text) (hrest : Apart rest) :
    parse_number (n.text ++ rest) = (n.value, rest) := by
  have hexp := parse_exponent_digits n.exponent rest n.exponent_digits hrest
  have hexp_head : ∀ c ∈ (exponent_text n.exponent ++ rest).head?, is_digit c = false ∧ c ≠ 46 := by
    rcases n.exponent with _ | ⟨negative, ds⟩
    · exact fun c hc => ⟨(hrest c hc).1, (hrest c hc).2.1⟩
    · rintro c ⟨⟩
      decide
  have hfraction := parse_fraction_digits n.fraction (exponent_text n.exponent ++ rest)
    n.fraction_digits hexp_head (digits 0 n.whole)
  have hfraction_head : ∀ c ∈ (fraction_text n.fraction ++
      (exponent_text n.exponent ++ rest)).head?, is_digit c = false := by
    unfold fraction_text
    split
    · exact fun c hc => (hexp_head c hc).1
    · rintro c ⟨⟩
      decide
  have hwhole := parse_whole_digits n _ hfraction_head
  simp only [parse_number, parse_sign_text, hwhole, hfraction, hexp]
  rfl

/-! ## Documents -/

mutual

/-- The document that the parser makes. -/
def read_back : cJSON Numeral → cJSON Decimal
  | .cJSON_NULL => .cJSON_NULL
  | .cJSON_False => .cJSON_False
  | .cJSON_True => .cJSON_True
  | .cJSON_Number n => .cJSON_Number n.value
  | .cJSON_String valuestring => .cJSON_String valuestring
  | .cJSON_Array child => .cJSON_Array (items_read_back child)
  | .cJSON_Object child => .cJSON_Object (members_read_back child)
  | .cJSON_Note => .cJSON_Note

def items_read_back : List (cJSON Numeral) → List (cJSON Decimal)
  | [] => []
  | item :: items => read_back item :: items_read_back items

def members_read_back : List (Text × cJSON Numeral) → List (Text × cJSON Decimal)
  | [] => []
  | (string, item) :: items => (string, read_back item) :: members_read_back items

end

mutual

/-- Does no string have its terminator before its end? -/
def terminated {N : Type} : cJSON N → Bool
  | .cJSON_String valuestring => decide (0 ∉ valuestring)
  | .cJSON_Array child => items_terminated child
  | .cJSON_Object child => members_terminated child
  | _ => true

def items_terminated {N : Type} : List (cJSON N) → Bool
  | [] => true
  | item :: items => terminated item && items_terminated items

def members_terminated {N : Type} : List (Text × cJSON N) → Bool
  | [] => true
  | (string, item) :: items =>
    decide (0 ∉ string) && terminated item && members_terminated items

end

/-! ### What the printer has written -/

theorem print_array_inv {fmt : Bool} {depth : Nat} {child : List (cJSON Numeral)} {t : Text}
    (h : print_value fmt depth (.cJSON_Array child) = .ok (some t)) :
    ∃ entries, print_items fmt (depth + 1) child = .ok (some entries) ∧
      t = array_text fmt entries := by
  rw [print_value] at h
  obtain ⟨r, hr, h⟩ := bind_ok h
  cases r with
  | none => cases h
  | some entries =>
    simp only [print_array_ok] at h
    cases h
    exact ⟨entries, hr, rfl⟩

theorem print_object_inv {fmt : Bool} {depth : Nat} {child : List (Text × cJSON Numeral)}
    {t : Text} (h : print_value fmt depth (.cJSON_Object child) = .ok (some t)) :
    ∃ entries, print_members fmt (depth + 1) child = .ok (some entries) ∧
      t = object_text fmt depth entries := by
  rw [print_value] at h
  obtain ⟨r, hr, h⟩ := bind_ok h
  cases r with
  | none => cases h
  | some entries =>
    refine ⟨entries, hr, ?_⟩
    by_cases hroom : fmt = true → entries = [] → 0 < depth
    · simp only [print_object_ok fmt depth entries hroom] at h
      cases h
      rfl
    · simp only [Classical.not_imp] at hroom
      obtain ⟨rfl, rfl, hdepth⟩ := hroom
      obtain rfl : depth = 0 := by omega
      cases h

theorem print_items_inv {fmt : Bool} {depth : Nat} {item : cJSON Numeral}
    {items : List (cJSON Numeral)} {entries : List Text}
    (h : print_items fmt depth (item :: items) = .ok (some entries)) :
    ∃ ret rets, print_value fmt depth item = .ok (some ret) ∧
      print_items fmt depth items = .ok (some rets) ∧ entries = ret :: rets := by
  rw [print_items] at h
  obtain ⟨r, hr, h⟩ := bind_ok h
  cases r with
  | none => cases h
  | some ret =>
    obtain ⟨rs, hrs, h⟩ := bind_ok h
    cases rs with
    | none => cases h
    | some rets =>
      cases h
      exact ⟨ret, rets, hr, hrs, rfl⟩

theorem print_members_inv {fmt : Bool} {depth : Nat} {string : Text} {item : cJSON Numeral}
    {items : List (Text × cJSON Numeral)} {entries : List (Text × Text)}
    (h : print_members fmt depth ((string, item) :: items) = .ok (some entries)) :
    ∃ ret rets, print_value fmt depth item = .ok (some ret) ∧
      print_members fmt depth items = .ok (some rets) ∧
      entries = (quoted string, ret) :: rets := by
  rw [print_members, print_string_ptr_ok, ok_bind] at h
  obtain ⟨r, hr, h⟩ := bind_ok h
  obtain ⟨rs, hrs, h⟩ := bind_ok h
  cases r with
  | none => cases h
  | some ret =>
    cases rs with
    | none => cases h
    | some rets =>
      cases h
      exact ⟨ret, rets, hr, hrs, rfl⟩

/-- A character with which a printed item begins. -/
def Begins (c : UInt8) : Prop := 32 < c ∧ c ≠ 93

theorem print_value_cons {fmt : Bool} {depth : Nat} {item : cJSON Numeral} {t : Text}
    (h : print_value fmt depth item = .ok (some t)) : ∃ c u, t = c :: u ∧ Begins c := by
  cases item with
  | cJSON_NULL => cases h; exact ⟨_, _, rfl, by simp [Begins]⟩
  | cJSON_False => cases h; exact ⟨_, _, rfl, by simp [Begins]⟩
  | cJSON_True => cases h; exact ⟨_, _, rfl, by simp [Begins]⟩
  | cJSON_Number n =>
    rw [print_value, print_number_ok] at h
    cases h
    obtain ⟨c, u, hcu, hc⟩ := n.text_cons
    refine ⟨c, u, hcu, ?_⟩
    rcases hc with rfl | hc
    · simp [Begins]
    · simp only [is_digit, Bool.and_eq_true, decide_eq_true_eq, UInt8.le_iff_toNat_le] at hc
      refine ⟨UInt8.lt_iff_toNat_lt.2 ?_, ?_⟩
      · simp at hc ⊢
        omega
      · rintro rfl
        simp at hc
  | cJSON_String valuestring =>
    rw [print_value, print_string_ptr_ok] at h
    cases h
    exact ⟨_, _, rfl, by simp [Begins]⟩
  | cJSON_Array child =>
    obtain ⟨entries, -, rfl⟩ := print_array_inv h
    exact ⟨_, _, rfl, by simp [Begins]⟩
  | cJSON_Object child =>
    obtain ⟨entries, -, rfl⟩ := print_object_inv h
    exact ⟨_, _, rfl, by simp [Begins]⟩
  | cJSON_Note => cases h

/-! ### What the parser reads -/

theorem skip_of_lt {c : UInt8} (h : 32 < c) (text : Text) : skip (c :: text) = c :: text := by
  have hc : ¬c ≤ 32 := UInt8.not_le.2 h
  simp [skip, hc]

theorem skip_of_le {c : UInt8} (h : c ≤ 32) (text : Text) : skip (c :: text) = skip text := by
  simp [skip, h]

theorem skip_tabs (fmt : Bool) (n : Nat) (text : Text) : skip (tabs fmt n ++ text) = skip text := by
  cases fmt with
  | false => rfl
  | true =>
    induction n with
    | zero => rfl
    | succ n ih => exact (skip_of_le (by decide) _).trans ih

/-- What the layout adds is skipped. -/
theorem skip_layout {c : UInt8} (h : c ≤ 32) (fmt : Bool) (text : Text) :
    skip ((if fmt then [c] else []) ++ text) = skip text := by
  cases fmt
  · rfl
  · exact skip_of_le h _

theorem parse_items_skip {text text' : Text} (h : skip text = skip text') (fuel : Nat) :
    parse_items fuel text = parse_items fuel text' := by
  cases fuel with
  | zero => rfl
  | succ fuel => rw [parse_items, parse_items, h]

theorem parse_members_skip {text text' : Text} (h : skip text = skip text') (fuel : Nat) :
    parse_members fuel text = parse_members fuel text' := by
  cases fuel with
  | zero => rfl
  | succ fuel => rw [parse_members, parse_members, h]

/-- Nothing that stands behind an item goes on with a number. -/
theorem apart_cons {c : UInt8} (h : c ∈ ([44, 93, 125, 10] : List UInt8)) (rest : Text) :
    Apart (c :: rest) := by
  rintro _ ⟨⟩
  simp only [List.mem_cons, List.not_mem_nil, or_false] at h
  rcases h with rfl | rfl | rfl | rfl <;> decide

theorem parse_value_number (fuel : Nat) {c : UInt8} (h : c = 45 ∨ is_digit c = true)
    (text : Text) : parse_value (fuel + 1) (c :: text) =
      .ok (.found (.cJSON_Number (parse_number (c :: text)).1) (parse_number (c :: text)).2) := by
  have hne : c ≠ 47 ∧ c ≠ 110 ∧ c ≠ 102 ∧ c ≠ 116 ∧ c ≠ 34 := by
    refine ⟨?_, ?_, ?_, ?_, ?_⟩ <;> rintro rfl <;> revert h <;> decide
  obtain ⟨h47, h110, h102, h116, h34⟩ := hne
  simp [parse_value, List.isPrefixOf, h47.symm, h110.symm, h102.symm, h116.symm, h34, h]

theorem parse_value_string (fuel : Nat) (text : Text) :
    parse_value (fuel + 1) (34 :: text) = next (parse_string (34 :: text))
      fun valuestring rest => .ok (.found (.cJSON_String valuestring) rest) := by
  simp [parse_value, List.isPrefixOf]

theorem parse_value_array (fuel : Nat) (text : Text) :
    parse_value (fuel + 1) (91 :: text) =
      if (skip text).head? = some 93 then .ok (.found (.cJSON_Array []) (skip text).tail)
      else next (parse_items fuel (skip text)) fun child rest =>
        .ok (.found (.cJSON_Array child) rest) := by
  simp [parse_value, List.isPrefixOf, is_digit]

theorem parse_value_object (fuel : Nat) (text : Text) :
    parse_value (fuel + 1) (123 :: text) =
      if (skip text).head? = some 125 then .ok (.found (.cJSON_Object []) (skip text).tail)
      else next (parse_members fuel (skip text)) fun child rest =>
        .ok (.found (.cJSON_Object child) rest) := by
  simp [parse_value, List.isPrefixOf, is_digit]

theorem commas_cons (fmt : Bool) (ret next : Text) (rets : List Text) (w : Text) :
    commas fmt (ret :: next :: rets) ++ w =
      ret ++ 44 :: ((if fmt then [32] else []) ++ (commas fmt (next :: rets) ++ w)) := by
  cases fmt <;> simp [commas]

theorem members_cons (fmt : Bool) (k : Nat) (name ret : Text) (rets : List (Text × Text))
    (w : Text) :
    members fmt k ((name, ret) :: rets) ++ w =
      tabs fmt k ++ (name ++ 58 :: (tabs fmt 1 ++ (ret ++ ((if rets = [] then [] else [44]) ++
        ((if fmt then [10] else []) ++ (members fmt k rets ++ w)))))) := by
  simp [members]

theorem print_items_nil_iff {fmt : Bool} {depth : Nat} {items : List (cJSON Numeral)}
    {entries : List Text} (h : print_items fmt depth items = .ok (some entries)) :
    entries = [] ↔ items = [] := by
  cases items with
  | nil => cases h; simp
  | cons item items =>
    obtain ⟨ret, rets, -, -, rfl⟩ := print_items_inv h
    simp

theorem print_members_nil_iff {fmt : Bool} {depth : Nat}
    {items : List (Text × cJSON Numeral)} {entries : List (Text × Text)}
    (h : print_members fmt depth items = .ok (some entries)) : entries = [] ↔ items = [] := by
  cases items with
  | nil => cases h; simp
  | cons item items =>
    obtain ⟨string, item⟩ := item
    obtain ⟨ret, rets, -, -, rfl⟩ := print_members_inv h
    simp

theorem skip_printed {fmt : Bool} {depth : Nat} {item : cJSON Numeral} {t : Text}
    (h : print_value fmt depth item = .ok (some t)) (w : Text) : skip (t ++ w) = t ++ w := by
  obtain ⟨c, u, rfl, hc⟩ := print_value_cons h
  exact skip_of_lt hc.1 _

theorem commas_begin {fmt : Bool} {depth : Nat} {items : List (cJSON Numeral)}
    {entries : List Text} (h : print_items fmt depth items = .ok (some entries))
    (hne : items ≠ []) (w : Text) : ∃ c u, commas fmt entries ++ w = c :: u ∧ Begins c := by
  cases items with
  | nil => exact absurd rfl hne
  | cons item items =>
    obtain ⟨ret, rets, hret, -, rfl⟩ := print_items_inv h
    obtain ⟨c, u, rfl, hc⟩ := print_value_cons hret
    cases rets with
    | nil => exact ⟨c, u ++ w, rfl, hc⟩
    | cons next rets =>
      rw [commas_cons]
      exact ⟨c, _, rfl, hc⟩

theorem skip_members (fmt : Bool) (k : Nat) (string ret : Text) (rets : List (Text × Text))
    (w : Text) :
    skip (members fmt k ((quoted string, ret) :: rets) ++ w) =
      quoted string ++ 58 :: (tabs fmt 1 ++ (ret ++ ((if rets = [] then [] else [44]) ++
        ((if fmt then [10] else []) ++ (members fmt k rets ++ w))))) := by
  rw [members_cons, skip_tabs]
  exact skip_of_lt (by decide) _

theorem members_begin {fmt : Bool} {depth : Nat} {items : List (Text × cJSON Numeral)}
    {entries : List (Text × Text)} (h : print_members fmt depth items = .ok (some entries))
    (hne : items ≠ []) (k : Nat) (w : Text) :
    ∃ u, skip (members fmt k entries ++ w) = 34 :: u := by
  cases items with
  | nil => exact absurd rfl hne
  | cons item items =>
    obtain ⟨string, item⟩ := item
    obtain ⟨ret, rets, -, -, rfl⟩ := print_members_inv h
    exact ⟨_, skip_members fmt k string ret rets w⟩

mutual

theorem read_value (fmt : Bool) : (item : cJSON Numeral) → ∀ {depth fuel : Nat} {t rest : Text},
    terminated item = true → print_value fmt depth item = .ok (some t) → Apart rest →
    2 * (t ++ rest).length + 2 ≤ fuel →
    parse_value fuel (t ++ rest) = .ok (.found (read_back item) rest)
  | item, depth, 0, t, rest, _, _, _, hfuel => by omega
  | .cJSON_NULL, depth, fuel + 1, t, rest, _, hp, _, _ => by
    cases hp
    simp [parse_value, List.isPrefixOf, read_back]
  | .cJSON_False, depth, fuel + 1, t, rest, _, hp, _, _ => by
    cases hp
    simp [parse_value, List.isPrefixOf, read_back]
  | .cJSON_True, depth, fuel + 1, t, rest, _, hp, _, _ => by
    cases hp
    simp [parse_value, List.isPrefixOf, read_back]
  | .cJSON_Number n, depth, fuel + 1, t, rest, _, hp, hrest, _ => by
    rw [print_value, print_number_ok] at hp
    cases hp
    have hnumber := parse_number_text n rest hrest
    obtain ⟨c, u, hcu, hc⟩ := n.text_cons
    rw [hcu] at hnumber ⊢
    rw [List.cons_append] at hnumber ⊢
    rw [parse_value_number fuel hc, hnumber, read_back]
  | .cJSON_String valuestring, depth, fuel + 1, t, rest, hs, hp, _, _ => by
    rw [print_value, print_string_ptr_ok] at hp
    cases hp
    have hstring := parse_string_quoted valuestring rest (of_decide_eq_true hs)
    rw [quoted, List.cons_append] at hstring ⊢
    rw [parse_value_string, hstring, read_back]
    rfl
  | .cJSON_Note, depth, fuel + 1, t, rest, _, hp, _, _ => by cases hp
  | .cJSON_Array child, depth, fuel + 1, t, rest, hs, hp, _, hfuel => by
    obtain ⟨entries, hentries, rfl⟩ := print_array_inv hp
    have hread := fun hne hfuel => @read_items fmt child (depth + 1) fuel entries rest hne hs
      hentries hfuel
    have htext : array_text fmt entries ++ rest = 91 :: (commas fmt entries ++ 93 :: rest) := by
      simp [array_text]
    rw [htext] at hfuel ⊢
    rw [parse_value_array, read_back]
    by_cases hnil : entries = []
    · have hchild := (print_items_nil_iff hentries).1 hnil
      subst hnil hchild
      rw [commas, List.nil_append, skip_of_lt (by decide)]
      rfl
    · have hchild := mt (print_items_nil_iff hentries).2 hnil
      obtain ⟨c, u, hcu, hc⟩ := commas_begin hentries hchild (93 :: rest)
      have hskip : skip (commas fmt entries ++ 93 :: rest) = commas fmt entries ++ 93 :: rest := by
        rw [hcu]
        exact skip_of_lt hc.1 u
      have hopen : ¬(commas fmt entries ++ 93 :: rest).head? = some 93 := by
        rw [hcu]
        exact fun h => hc.2 (Option.some.inj h)
      simp only [List.length_cons] at hfuel
      rw [hskip, if_neg hopen, hread hchild (by omega)]
      rfl
  | .cJSON_Object child, depth, fuel + 1, t, rest, hs, hp, _, hfuel => by
    obtain ⟨entries, hentries, rfl⟩ := print_object_inv hp
    have hread := fun k d hne hfuel => @read_members fmt child (depth + 1) fuel k d entries rest hne
      hs hentries hfuel
    have htext : object_text fmt depth entries ++ rest = 123 :: ((if fmt then [10] else []) ++
        (members fmt (depth + 1) entries ++
          (tabs fmt (if entries = [] then depth - 1 else depth) ++ 125 :: rest))) := by
      simp [object_text]
    rw [htext] at hfuel ⊢
    rw [parse_value_object, skip_layout (c := 10) (by decide), read_back]
    by_cases hnil : entries = []
    · have hchild := (print_members_nil_iff hentries).1 hnil
      subst hnil hchild
      rw [members, List.nil_append, skip_tabs, skip_of_lt (by decide)]
      rfl
    · have hchild := mt (print_members_nil_iff hentries).2 hnil
      simp only [if_neg hnil] at hfuel ⊢
      have hlen : (members fmt (depth + 1) entries ++ (tabs fmt depth ++ 125 :: rest)).length + 1 ≤
          (123 :: ((if fmt then [10] else []) ++ (members fmt (depth + 1) entries ++
            (tabs fmt depth ++ 125 :: rest)))).length := by
        simp only [List.length_cons, List.length_append]
        omega
      obtain ⟨u, hu⟩ := members_begin hentries hchild (depth + 1) (tabs fmt depth ++ 125 :: rest)
      have hskip : skip (skip (members fmt (depth + 1) entries ++
          (tabs fmt depth ++ 125 :: rest))) =
          skip (members fmt (depth + 1) entries ++ (tabs fmt depth ++ 125 :: rest)) := by
        rw [hu]
        exact skip_of_lt (by decide) u
      have hopen : ¬(skip (members fmt (depth + 1) entries ++
          (tabs fmt depth ++ 125 :: rest))).head? = some 125 := by
        rw [hu]
        rintro ⟨⟩
      rw [if_neg hopen, parse_members_skip hskip, hread _ _ hchild (by omega)]
      rfl

theorem read_items (fmt : Bool) : (items : List (cJSON Numeral)) →
    ∀ {depth fuel : Nat} {entries : List Text} {rest : Text}, items ≠ [] →
    items_terminated items = true → print_items fmt depth items = .ok (some entries) →
    2 * (commas fmt entries ++ 93 :: rest).length + 3 ≤ fuel →
    parse_items fuel (commas fmt entries ++ 93 :: rest) =
      .ok (.found (items_read_back items) rest)
  | [], _, _, _, _, hne, _, _, _ => absurd rfl hne
  | item :: items, depth, 0, entries, rest, _, _, _, hfuel => by omega
  | item :: items, depth, fuel + 1, entries, rest, _, hs, hp, hfuel => by
    obtain ⟨ret, rets, hret, hrets, rfl⟩ := print_items_inv hp
    rw [items_terminated, Bool.and_eq_true] at hs
    have hitem := fun w hw hfuel => @read_value fmt item depth fuel ret w hs.1 hret hw hfuel
    have hitems := fun hne hfuel => @read_items fmt items depth fuel rets rest hne hs.2 hrets hfuel
    cases rets with
    | nil =>
      have hlast := (print_items_nil_iff hrets).1 rfl
      subst hlast
      rw [commas] at hfuel ⊢
      rw [parse_items, skip_printed hret, hitem _ (apart_cons (by simp) rest) (by omega)]
      simp only [next]
      rw [skip_of_lt (by decide)]
      rfl
    | cons after rets =>
      have hmore := mt (print_items_nil_iff hrets).2 (List.cons_ne_nil after rets)
      rw [commas_cons] at hfuel ⊢
      simp only [List.length_append, List.length_cons] at hfuel hitems hitem
      rw [parse_items, skip_printed hret, hitem _ (apart_cons (by simp) _) (by simp; omega)]
      simp only [next]
      rw [skip_of_lt (by decide), List.head?_cons, if_pos rfl, List.tail_cons,
        parse_items_skip (skip_layout (c := 32) (by decide) fmt _), hitems hmore (by omega)]
      rfl

theorem read_members (fmt : Bool) : (items : List (Text × cJSON Numeral)) →
    ∀ {depth fuel k d : Nat} {entries : List (Text × Text)} {rest : Text}, items ≠ [] →
    members_terminated items = true → print_members fmt depth items = .ok (some entries) →
    2 * (members fmt k entries ++ (tabs fmt d ++ 125 :: rest)).length + 3 ≤ fuel →
    parse_members fuel (members fmt k entries ++ (tabs fmt d ++ 125 :: rest)) =
      .ok (.found (members_read_back items) rest)
  | [], _, _, _, _, _, _, hne, _, _, _ => absurd rfl hne
  | item :: items, depth, 0, k, d, entries, rest, _, _, _, hfuel => by omega
  | (string, item) :: items, depth, fuel + 1, k, d, entries, rest, _, hs, hp, hfuel => by
    obtain ⟨ret, rets, hret, hrets, rfl⟩ := print_members_inv hp
    simp only [members_terminated, Bool.and_eq_true, decide_eq_true_eq] at hs
    obtain ⟨⟨hstring, hs⟩, hss⟩ := hs
    have hitem := fun w hw hfuel => @read_value fmt item depth fuel ret w hs hret hw hfuel
    have hitems := fun hne hfuel => @read_members fmt items depth fuel k d rets rest hne hss hrets
      hfuel
    rw [parse_members, skip_members, parse_string_quoted string _ hstring]
    simp only [next]
    rw [skip_of_lt (by decide), List.head?_cons, if_neg (by simp), List.tail_cons, skip_tabs,
      skip_printed hret]
    rw [members_cons] at hfuel
    simp only [List.length_append, List.length_cons] at hfuel hitem hitems
    cases rets with
    | nil =>
      have hlast := (print_members_nil_iff hrets).1 rfl
      subst hlast
      simp only [if_true, List.nil_append, members] at hfuel ⊢
      have hend :
          skip ((if fmt then [10] else []) ++ (tabs fmt d ++ 125 :: rest)) = 125 :: rest := by
        rw [skip_layout (c := 10) (by decide), skip_tabs]
        exact skip_of_lt (by decide) rest
      have hapart : Apart ((if fmt then [10] else []) ++ (tabs fmt d ++ 125 :: rest)) := by
        cases fmt
        · exact apart_cons (by simp) rest
        · exact apart_cons (by simp) _
      rw [hitem _ hapart (by simp only [List.length_append, List.length_cons]; omega)]
      simp only
      rw [hend]
      rfl
    | cons after rets =>
      have hmore := mt (print_members_nil_iff hrets).2 (List.cons_ne_nil after rets)
      simp only [List.cons_ne_nil, if_false, List.cons_append, List.nil_append,
        List.length_cons] at hfuel ⊢
      rw [hitem _ (apart_cons (by simp) _)
        (by simp only [List.length_append, List.length_cons]; omega)]
      simp only
      rw [skip_of_lt (by decide), List.head?_cons, if_pos rfl, List.tail_cons,
        parse_members_skip (skip_layout (c := 10) (by decide) fmt _), hitems hmore (by omega)]
      rfl

end

theorem parse_printed {fmt : Bool} {item : cJSON Numeral} {t : Text}
    (hs : terminated item = true) (hp : print_value fmt 0 item = .ok (some t))
    (require_null_terminated : Bool) :
    cJSON_ParseWithOpts t require_null_terminated = .ok (.found (read_back item) []) := by
  have hapart : Apart [] := fun c hc => by cases hc
  have hskip := skip_printed hp []
  have hread := read_value fmt item hs hp hapart (Nat.le_refl _)
  rw [List.append_nil] at hskip hread
  rw [cJSON_ParseWithOpts, hskip, hread]
  simp [next, skip]

/-- What the printer returns is parsed to its end, in lines or not, and gives the document: the
same items and strings, and for a number what its digits say. -/
theorem a_printed_document_is_read_back (item : cJSON Numeral) (t : Text)
    (require_null_terminated : Bool) (hs : terminated item = true)
    (hp : cJSON_Print item = .ok (some t) ∨ cJSON_PrintUnformatted item = .ok (some t)) :
    cJSON_ParseWithOpts t require_null_terminated = .ok (.found (read_back item) []) := by
  rcases hp with hp | hp
  · exact parse_printed hs hp require_null_terminated
  · exact parse_printed hs hp require_null_terminated

def an_answer : cJSON Numeral :=
  .cJSON_Object [([97], .cJSON_Array [.cJSON_True, .cJSON_String [34, 10, 7]])]

theorem a_printed_document_is_read_back_example :
    cJSON_Parse [123, 34, 97, 34, 58, 91, 116, 114, 117, 101, 44, 34, 92, 34, 92, 110, 92, 117, 48,
        48, 48, 55, 34, 93, 125] =
      .ok (.found (.cJSON_Object [([97], .cJSON_Array [.cJSON_True, .cJSON_String [34, 10, 7]])])
        []) :=
  a_printed_document_is_read_back an_answer _ false rfl (.inr rfl)

end zonekey_mcu.cjson
