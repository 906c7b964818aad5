-- The buffers of the printer. Each is large enough for its text, but for the three bytes that an
-- empty object gets where it is the whole document and is printed in lines.
import ZonekeyMcu.Json

namespace zonekey_mcu.cjson

theorem fill_ok {size : Nat} {text : Text} (h : text.length < size) : fill size text = .ok text :=
  if_pos h

/-! ## Numbers and strings -/

theorem length_exponent_text (e : Option (Bool × Text)) :
    (exponent_text e).length ≤ 2 + e.elim 0 fun e => e.2.length := by
  rcases e with _ | ⟨negative, digits⟩
  · simp [exponent_text]
  · simp only [exponent_text, List.length_cons, Option.elim_some]
    omega

theorem length_fraction_text (fraction : Text) :
    (fraction_text fraction).length ≤ fraction.length + 1 := by
  unfold fraction_text
  split <;> simp

theorem print_number_ok (n : Numeral) : print_number n = .ok n.text := by
  refine fill_ok ?_
  have hsign : (if n.negative then [45] else ([] : Text)).length ≤ 1 := by split <;> simp
  simp only [Numeral.text, List.length_append]
  by_cases hshort : n.is_short = true
  · have h := of_decide_eq_true hshort
    rw [if_pos hshort, h.1, h.2.1]
    simp only [fraction_text, exponent_text, if_true, List.length_nil]
    omega
  · have hfraction := length_fraction_text n.fraction
    have hexp := length_exponent_text n.exponent
    rw [if_neg hshort]
    rcases n.room with ⟨hf, he, hw⟩ | ⟨hw, hf, he⟩
    · rw [hf, he]
      simp only [fraction_text, exponent_text, if_true, List.length_nil]
      omega
    · omega

/-- The three ways in which a character is printed, with the room that is counted for it. -/
inductive Escaped (c : UInt8) : Text → Nat → Prop
  | plain (h : 31 < c) (quote : c ≠ 34) (backslash : c ≠ 92) : Escaped c [c] 1
  | pair (e : UInt8) (h : e ≠ 117) (back : unescaped e = c) : Escaped c [92, e] 2
  | code (h : c < 32) : Escaped c [92, 117, 48, 48, hex (c / 16), hex (c % 16)] 6

theorem escape_escaped (c : UInt8) : Escaped c (escape c) (escape_room c) := by
  unfold escape escape_room
  by_cases hpair : c ∈ ([34, 92, 8, 12, 10, 13, 9] : List UInt8)
  · rw [if_pos hpair]
    simp only [List.mem_cons, List.not_mem_nil, or_false] at hpair
    rcases hpair with rfl | rfl | rfl | rfl | rfl | rfl | rfl <;>
      exact .pair _ (by decide) (by decide)
  · rw [if_neg hpair]
    simp only [List.mem_cons, List.not_mem_nil, or_false, not_or] at hpair
    obtain ⟨h34, h92, h8, h12, h10, h13, h9⟩ := hpair
    by_cases hlow : c < 32
    · have hc : ¬(31 < c) := by simp only [UInt8.lt_iff_toNat_lt] at *; simp at *; omega
      simpa [hc, h34, h92, h8, h12, h10, h13, h9, hlow] using Escaped.code hlow
    · have hc : 31 < c := by simp only [UInt8.lt_iff_toNat_lt] at *; simp at *; omega
      simpa [hc, h34, h92, hlow] using Escaped.plain hc h34 h92

theorem length_escape (c : UInt8) : (escape c).length = escape_room c := by
  have h := escape_escaped c
  generalize escape c = text, escape_room c = room at h
  cases h <;> rfl

theorem print_string_ptr_ok (str : Text) : print_string_ptr str = .ok (quoted str) := by
  refine fill_ok ?_
  have hroom : (str.flatMap escape).length = (str.map escape_room).sum := by
    rw [List.length_flatMap]
    exact congrArg List.sum (List.map_congr_left fun c _ => length_escape c)
  simp only [quoted, List.length_cons, List.length_append, List.length_nil, hroom]
  omega

/-! ## Arrays and objects -/

def array_text (fmt : Bool) (entries : List Text) : Text := 91 :: (commas fmt entries ++ [93])

/-- The text of an object at depth `depth`. -/
def object_text (fmt : Bool) (depth : Nat) (entries : List (Text × Text)) : Text :=
  123 :: ((if fmt then [10] else []) ++ members fmt (depth + 1) entries ++
    tabs fmt (if entries = [] then depth - 1 else depth) ++ [125])

theorem length_commas (fmt : Bool) (entries : List Text) :
    (commas fmt entries).length ≤
      (entries.map fun ret => ret.length + 2 + (if fmt then 1 else 0)).sum := by
  fun_induction commas fmt entries with
  | case1 => simp
  | case2 entry =>
    simp only [List.map_cons, List.map_nil, List.sum_cons, List.sum_nil]
    omega
  | case3 entry entries h ih =>
    simp only [List.length_append, List.map_cons, List.sum_cons]
    split <;> simp_all <;> omega

theorem print_array_ok (fmt : Bool) (entries : List Text) :
    print_array fmt entries = .ok (array_text fmt entries) := by
  unfold print_array
  split
  · next h => subst h; rfl
  · have hlen := length_commas fmt entries
    refine fill_ok ?_
    simp only [List.length_cons, List.length_append, List.length_nil]
    omega

theorem length_tabs (fmt : Bool) (n : Nat) : (tabs fmt n).length = if fmt then n else 0 := by
  cases fmt <;> simp [tabs]

theorem length_members (fmt : Bool) (depth : Nat) (entries : List (Text × Text)) :
    (members fmt depth entries).length ≤ (entries.map fun e =>
      e.2.length + e.1.length + 2 + (if fmt then 2 + depth else 0)).sum := by
  induction entries with
  | nil => simp [members]
  | cons e rest ih =>
    obtain ⟨name, entry⟩ := e
    have hcomma : (if rest = [] then [] else ([44] : Text)).length ≤ 1 := by split <;> simp
    simp only [members, List.length_append, List.length_cons, length_tabs, List.map_cons,
      List.sum_cons]
    cases fmt <;> simp at * <;> omega

/-- An empty object at depth 0 gets a byte less than its lines take. -/
theorem print_object_ok (fmt : Bool) (depth : Nat) (entries : List (Text × Text))
    (h : fmt = true → entries = [] → 0 < depth) :
    print_object fmt depth entries = .ok (object_text fmt depth entries) := by
  unfold print_object object_text
  split
  · next hnil =>
    subst hnil
    rw [fill_ok]
    · cases fmt <;> simp [members, tabs]
    · cases fmt
      · simp
      · have := h rfl rfl
        simp [tabs]
        omega
  · have hlen := length_members fmt (depth + 1) entries
    refine fill_ok ?_
    simp only [List.length_cons, List.length_append, List.length_nil, length_tabs]
    cases fmt <;> simp at * <;> omega

/-! ## Documents -/

mutual

/-- Is there a note in it? -/
def noted {N : Type} : cJSON N → Bool
  | .cJSON_Array child => items_noted child
  | .cJSON_Object child => members_noted child
  | .cJSON_Note => true
  | _ => false

def items_noted {N : Type} : List (cJSON N) → Bool
  | [] => false
  | item :: items => noted item || items_noted items

def members_noted {N : Type} : List (Text × cJSON N) → Bool
  | [] => false
  | (_, item) :: items => noted item || members_noted items

end

/-- Where a printer returns, and that it returns 0 only for a note. -/
def Prints {α : Type} (x : Except Crash (Option α)) (noted : Bool) : Prop :=
  ∃ r, x = .ok r ∧ (r = none ↔ noted = true)

mutual

theorem print_value_prints (fmt : Bool) (depth : Nat) : (item : cJSON Numeral) →
    (fmt = true → 0 < depth ∨ ∀ child, item = .cJSON_Object child → child ≠ []) →
    Prints (print_value fmt depth item) (noted item)
  | .cJSON_NULL, _ => ⟨_, rfl, by simp [noted]⟩
  | .cJSON_False, _ => ⟨_, rfl, by simp [noted]⟩
  | .cJSON_True, _ => ⟨_, rfl, by simp [noted]⟩
  | .cJSON_Number n, _ => ⟨some n.text, by rw [print_value, print_number_ok]; rfl, by simp [noted]⟩
  | .cJSON_String valuestring, _ =>
    ⟨some (quoted valuestring), by rw [print_value, print_string_ptr_ok]; rfl, by simp [noted]⟩
  | .cJSON_Note, _ => ⟨none, rfl, by simp [noted]⟩
  | .cJSON_Array child, _ => by
    obtain ⟨r, hr, hn⟩ := print_items_prints fmt depth child
    rw [Prints, print_value, hr, noted, ← hn]
    cases r with
    | none => exact ⟨none, rfl, by simp⟩
    | some entries =>
      exact ⟨some (array_text fmt entries), by simp [print_array_ok, Except.map], by simp⟩
  | .cJSON_Object child, h => by
    obtain ⟨r, hr, hn, hnil⟩ := print_members_prints fmt depth child
    rw [Prints, print_value, hr, noted, ← hn]
    cases r with
    | none => exact ⟨none, rfl, by simp⟩
    | some entries =>
      have hroom : fmt = true → entries = [] → 0 < depth := fun hfmt hentries =>
        (h hfmt).resolve_right fun hne => hne child rfl (hnil entries rfl hentries)
      exact ⟨some (object_text fmt depth entries),
        by simp [print_object_ok _ _ _ hroom, Except.map], by simp⟩

theorem print_items_prints (fmt : Bool) (depth : Nat) : (items : List (cJSON Numeral)) →
    Prints (print_items fmt (depth + 1) items) (items_noted items)
  | [] => ⟨some [], rfl, by simp [items_noted]⟩
  | item :: items => by
    obtain ⟨ret, hret, hn⟩ := print_value_prints fmt (depth + 1) item (fun _ => .inl (by omega))
    obtain ⟨rest, hrest, hns⟩ := print_items_prints fmt depth items
    rw [Prints, print_items, hret, items_noted]
    cases ret with
    | none => exact ⟨none, rfl, by simp [← hn]⟩
    | some ret =>
      refine ⟨rest.map (ret :: ·), by simp [hrest], ?_⟩
      have hitem : noted item = false := by simpa using mt hn.2 (by simp)
      simp [hitem, hns]

theorem print_members_prints (fmt : Bool) (depth : Nat) :
    (items : List (Text × cJSON Numeral)) →
    ∃ r, print_members fmt (depth + 1) items = .ok r ∧ (r = none ↔ members_noted items = true) ∧
      ∀ entries, r = some entries → entries = [] → items = []
  | [] => ⟨some [], rfl, by simp [members_noted], by simp⟩
  | (string, item) :: items => by
    obtain ⟨ret, hret, hn⟩ := print_value_prints fmt (depth + 1) item (fun _ => .inl (by omega))
    obtain ⟨rest, hrest, hns, -⟩ := print_members_prints fmt depth items
    refine ⟨ret.bind fun ret => rest.map ((quoted string, ret) :: ·), ?_, ?_, ?_⟩
    · simp [print_members, print_string_ptr_ok, hret, hrest]
    · rw [members_noted, Bool.or_eq_true, ← hn, ← hns]
      cases ret <;> cases rest <;> simp
    · cases ret <;> cases rest <;> simp

end

theorem print_empty_object : cJSON_Print (.cJSON_Object []) = .error .outOfBounds := rfl

/-- The printer stays in its buffers, except where it prints the empty object in lines. It returns
0 for the documents that have a note in them. -/
theorem the_printer_overruns_only_for_the_empty_object (item : cJSON Numeral) :
    ((∃ r, cJSON_Print item = .ok r) ↔ ∀ child, item = .cJSON_Object child → child ≠ []) ∧
      (∀ r, cJSON_Print item = .ok r → (r = none ↔ noted item = true)) ∧
      ∃ r, cJSON_PrintUnformatted item = .ok r ∧ (r = none ↔ noted item = true) := by
  have hprints : (∀ child, item = .cJSON_Object child → child ≠ []) →
      Prints (cJSON_Print item) (noted item) :=
    fun h => print_value_prints true 0 item fun _ => .inr h
  have hobject : ∀ r, cJSON_Print item = .ok r →
      ∀ child, item = .cJSON_Object child → child ≠ [] := by
    rintro r hr child rfl rfl
    rw [print_empty_object] at hr
    cases hr
  refine ⟨⟨fun ⟨r, hr⟩ => hobject r hr, fun h => ?_⟩, fun r hr => ?_,
    print_value_prints false 0 item (by simp)⟩
  · obtain ⟨r, hr, -⟩ := hprints h
    exact ⟨r, hr⟩
  · obtain ⟨r', hr', hn⟩ := hprints (hobject r hr)
    rw [hr] at hr'
    cases hr'
    exact hn

end zonekey_mcu.cjson
