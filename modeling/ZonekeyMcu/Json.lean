-- cJSON, in the version of the repository, which reads notes: the texts that it writes with the
-- buffers that it writes them into, and the parser with its error pointer.
import Mathlib
import ZonekeyMcu.Fault

namespace zonekey_mcu.cjson

/-- A C string without its terminator. -/
abbrev Text := List UInt8

inductive Crash
  /-- A read behind the terminator, or a write behind a buffer. -/
  | outOfBounds
  /-- A use of a variable that nothing was assigned to. -/
  | indeterminate
  /-- The fuel of a recursion ran out. -/
  | neverReturns
  deriving DecidableEq, Repr

/-! ## Items -/

/-- `N` is what is known of a number. -/
inductive cJSON (N : Type)
  | cJSON_NULL
  | cJSON_False
  | cJSON_True
  | cJSON_Number (n : N)
  | cJSON_String (valuestring : Text)
  | cJSON_Array (child : List (cJSON N))
  | cJSON_Object (child : List (Text × cJSON N))
  | cJSON_Note

def is_digit (c : UInt8) : Bool := decide (48 ≤ c) && decide (c ≤ 57)

/-- What `sprintf` writes for a finite number, with `%d`, `%.0f`, `%e` or `%f`. -/
structure Numeral where
  negative : Bool
  whole : Text
  fraction : Text
  /-- Is it negative, and its digits. -/
  exponent : Option (Bool × Text)
  whole_digits : ∀ c ∈ whole, is_digit c = true
  /-- No zero stands before another digit. -/
  lead : whole = [48] ∨ ∃ c t, whole = c :: t ∧ 49 ≤ c
  fraction_digits : ∀ c ∈ fraction, is_digit c = true
  exponent_digits : ∀ e ∈ exponent, ∀ c ∈ e.2, is_digit c = true
  /-- `%.0f` is used below 1e60, and `%f` up to 1e9. -/
  room : fraction = [] ∧ exponent = none ∧ whole.length ≤ 60 ∨
    whole.length ≤ 10 ∧ fraction.length ≤ 6 ∧ (exponent.elim 0 fun e => e.2.length) ≤ 3

def exponent_text : Option (Bool × Text) → Text
  | none => []
  | some (negative, digits) => 101 :: (if negative then 45 else 43) :: digits

def fraction_text (fraction : Text) : Text := if fraction = [] then [] else 46 :: fraction

def Numeral.text (n : Numeral) : Text :=
  (if n.negative then [45] else []) ++
    (n.whole ++ (fraction_text n.fraction ++ exponent_text n.exponent))

/-- The texts of `%d`, which has a smaller buffer, are among these. -/
def Numeral.is_short (n : Numeral) : Bool :=
  decide (n.fraction = [] ∧ n.exponent = none ∧ n.whole.length ≤ 10)

/-! ## Printing -/

/-- A buffer of `size` bytes that gets the text and its terminator. -/
def fill (size : Nat) (text : Text) : Except Crash Text :=
  if text.length < size then .ok text else .error .outOfBounds

def print_number (n : Numeral) : Except Crash Text :=
  fill (if n.is_short then 21 else 64) n.text

def hex (d : UInt8) : UInt8 := if d < 10 then 48 + d else 87 + d

/-- One character of a string, as it is printed. -/
def escape (c : UInt8) : Text :=
  if 31 < c ∧ c ≠ 34 ∧ c ≠ 92 then [c]
  else if c = 92 then [92, 92]
  else if c = 34 then [92, 34]
  else if c = 8 then [92, 98]
  else if c = 12 then [92, 102]
  else if c = 10 then [92, 110]
  else if c = 13 then [92, 114]
  else if c = 9 then [92, 116]
  else [92, 117, 48, 48, hex (c / 16), hex (c % 16)]

/-- What the first pass over a string counts for a character. -/
def escape_room (c : UInt8) : Nat :=
  if c ∈ [34, 92, 8, 12, 10, 13, 9] then 2 else if c < 32 then 6 else 1

def quoted (str : Text) : Text := 34 :: (str.flatMap escape ++ [34])

def print_string_ptr (str : Text) : Except Crash Text :=
  fill ((str.map escape_room).sum + 3) (quoted str)

def commas (fmt : Bool) : List Text → Text
  | [] => []
  | [entry] => entry
  | entry :: entries => entry ++ (if fmt then [44, 32] else [44]) ++ commas fmt entries

def tabs (fmt : Bool) (n : Nat) : Text := if fmt then List.replicate n 9 else []

/-- The lines of an object. -/
def members (fmt : Bool) (depth : Nat) : List (Text × Text) → Text
  | [] => []
  | (name, entry) :: rest =>
    tabs fmt depth ++ name ++ 58 :: (tabs fmt 1 ++ entry ++
      (if rest = [] then [] else [44]) ++ (if fmt then [10] else [])) ++ members fmt depth rest

def print_array (fmt : Bool) (entries : List Text) : Except Crash Text :=
  if entries = [] then fill 3 [91, 93]
  else fill (5 + (entries.map fun ret => ret.length + 2 + (if fmt then 1 else 0)).sum)
    (91 :: (commas fmt entries ++ [93]))

def print_object (fmt : Bool) (depth : Nat) (entries : List (Text × Text)) :
    Except Crash Text :=
  if entries = [] then
    fill (if fmt then depth + 3 else 3)
      (123 :: ((if fmt then 10 :: tabs fmt (depth - 1) else []) ++ [125]))
  else
    fill (7 + (if fmt then depth + 1 else 0) + (entries.map fun e =>
        e.2.length + e.1.length + 2 + (if fmt then 2 + (depth + 1) else 0)).sum)
      (123 :: ((if fmt then [10] else []) ++ members fmt (depth + 1) entries ++
        tabs fmt depth ++ [125]))

-- A note prints as 0, and so does all that contains one.
mutual

def print_value (fmt : Bool) (depth : Nat) : cJSON Numeral → Except Crash (Option Text)
  | .cJSON_NULL => .ok (some [110, 117, 108, 108])
  | .cJSON_False => .ok (some [102, 97, 108, 115, 101])
  | .cJSON_True => .ok (some [116, 114, 117, 101])
  | .cJSON_Number n => (print_number n).map some
  | .cJSON_String valuestring => (print_string_ptr valuestring).map some
  | .cJSON_Array child => do
    match ← print_items fmt (depth + 1) child with
    | none => .ok none
    | some entries => (print_array fmt entries).map some
  | .cJSON_Object child => do
    match ← print_members fmt (depth + 1) child with
    | none => .ok none
    | some entries => (print_object fmt depth entries).map some
  | .cJSON_Note => .ok none

/-- The loop over an array ends at the first item that is not printed. -/
def print_items (fmt : Bool) (depth : Nat) :
    List (cJSON Numeral) → Except Crash (Option (List Text))
  | [] => .ok (some [])
  | item :: items => do
    match ← print_value fmt depth item with
    | none => .ok none
    | some ret => return (← print_items fmt depth items).map (ret :: ·)

/-- The loop over an object goes on. -/
def print_members (fmt : Bool) (depth : Nat) :
    List (Text × cJSON Numeral) → Except Crash (Option (List (Text × Text)))
  | [] => .ok (some [])
  | (string, item) :: items => do
    let str ← print_string_ptr string
    let ret ← print_value fmt depth item
    let rest ← print_members fmt depth items
    return ret.bind fun ret => rest.map ((str, ret) :: ·)

end

def cJSON_Print (item : cJSON Numeral) : Except Crash (Option Text) := print_value true 0 item

def cJSON_PrintUnformatted (item : cJSON Numeral) : Except Crash (Option Text) :=
  print_value false 0 item

/-! ## Parsing -/

/-- A text behind what was parsed, or the failure with the error pointer. -/
inductive Parsed (α : Type)
  | found (a : α) (rest : Text)
  | refused (ep : Option Text)

abbrev Result (α : Type) := Except Crash (Parsed α)

def next {α β : Type} (x : Result α) (f : α → Text → Result β) : Result β :=
  match x with
  | .ok (.found a rest) => f a rest
  | .ok (.refused ep) => .ok (.refused ep)
  | .error crash => .error crash

def skip (text : Text) : Text := text.dropWhile fun c => decide (c ≤ 32)

/-- `sign * n * pow(10.0, scale + subscale * signsubscale)`. -/
structure Decimal where
  negative : Bool
  n : Nat
  scale : Int
  subscale : Int
  deriving DecidableEq

def digit_loop : Nat → Text → Nat × Text
  | n, [] => (n, [])
  | n, c :: num =>
    if is_digit c then digit_loop (n * 10 + (c - 48).toNat) num else (n, c :: num)

def parse_sign : Text → Bool × Text
  | 45 :: num => (true, num)
  | num => (false, num)

def parse_whole (num : Text) : Nat × Text :=
  let num := if num.head? = some 48 then num.tail else num
  if ∃ c ∈ num.head?, 49 ≤ c ∧ c ≤ 57 then digit_loop 0 num else (0, num)

def parse_fraction (n : Nat) (num : Text) : Nat × Int × Text :=
  if num.head? = some 46 ∧ ∃ c ∈ num.tail.head?, is_digit c = true then
    let (n, rest) := digit_loop n num.tail
    (n, (rest.length : Int) - num.tail.length, rest)
  else (n, 0, num)

def parse_exponent (num : Text) : Int × Text :=
  if num.head? = some 101 ∨ num.head? = some 69 then
    let num := num.tail
    let signsubscale : Int := if num.head? = some 45 then -1 else 1
    let num := if num.head? = some 43 ∨ num.head? = some 45 then num.tail else num
    let (subscale, num) := digit_loop 0 num
    (subscale * signsubscale, num)
  else (0, num)

def parse_number (num : Text) : Decimal × Text :=
  let (negative, num) := parse_sign num
  let (n, num) := parse_whole num
  let (n, scale, num) := parse_fraction n num
  let (subscale, num) := parse_exponent num
  (⟨negative, n, scale, subscale⟩, num)

/-! ### Strings -/

def hex_digit (c : UInt8) : Option UInt32 :=
  if is_digit c then some (c - 48).toUInt32
  else if 97 ≤ c ∧ c ≤ 102 then some (c - 87).toUInt32
  else if 65 ≤ c ∧ c ≤ 70 then some (c - 55).toUInt32
  else none

/-- The digits of a number in `width` characters at most. -/
def hex_loop : Nat → Option UInt32 → Text → Option UInt32
  | width + 1, uc, c :: text => match hex_digit c with
    | some d => hex_loop width (some (uc.getD 0 * 16 + d)) text
    | none => uc
  | _, uc, _ => uc

/-- `sscanf(text, "%4x", &uc)`, with the white space, the sign and the prefix that it takes. -/
def sscanf_4x (text : Text) : Option UInt32 :=
  let text := text.dropWhile fun c => decide (9 ≤ c ∧ c ≤ 13 ∨ c = 32)
  let sign := text.head?.filter fun c => decide (c = 43 ∨ c = 45)
  let (width, text) := if sign.isSome then (3, text.tail) else (4, text)
  let (width, text) :=
    if text.head? = some 48 ∧ (text.tail.head? = some 120 ∨ text.tail.head? = some 88) then
      (width - 2, text.tail.tail)
    else (width, text)
  (hex_loop width none text).map fun uc => if sign = some 45 then 0 - uc else uc

def firstByteMark (len : Nat) : UInt32 :=
  if len = 2 then 0xC0 else if len = 3 then 0xE0 else if len = 4 then 0xF0 else 0

def utf8_length (uc : UInt32) : Nat :=
  if uc < 0x80 then 1 else if uc < 0x800 then 2 else if uc < 0x10000 then 3 else 4

/-- The bytes of a character, written from the last one to the first, and what is left of `uc`. -/
def utf8_loop (len : Nat) : Nat → UInt32 → Text → Text × UInt32
  | k + 2, uc, out => utf8_loop len (k + 1) (uc >>> 6) (((uc ||| 0x80) &&& 0xBF).toUInt8 :: out)
  | _, uc, out => ((uc ||| firstByteMark len).toUInt8 :: out, uc)

def utf8 (uc : UInt32) : Text × UInt32 := utf8_loop (utf8_length uc) (utf8_length uc) uc []

/-- The loop that counts. A backslash and what it escapes count as one. -/
def string_len : Text → Except Crash Nat
  | [] => .ok 0
  | c :: ptr =>
    if c = 34 then .ok 0
    else if c = 92 then match ptr with
      | [] => .error .outOfBounds
      | _ :: ptr => (string_len ptr).map (· + 1)
    else (string_len ptr).map (· + 1)

/-- The variables `uc` and `uc2`, which keep their values from one character to the next. -/
structure Codes where
  uc : Option UInt32
  uc2 : Option UInt32

/-- The case of `\u`, with the text behind it. -/
def transcode (codes : Codes) (ptr : Text) : Except Crash (Text × Codes × Text) :=
  if ptr.length < 4 then .error .outOfBounds
  else match sscanf_4x ptr <|> codes.uc with
    | none => .error .indeterminate
    | some uc =>
      let ptr := ptr.drop 4
      if 0xDC00 ≤ uc ∧ uc ≤ 0xDFFF ∨ uc = 0 then .ok ([], ⟨some uc, codes.uc2⟩, ptr)
      else if 0xD800 ≤ uc ∧ uc ≤ 0xDBFF then
        if ptr.take 2 ≠ [92, 117] then .ok ([], ⟨some uc, codes.uc2⟩, ptr)
        else
          let ptr := ptr.drop 2
          if ptr.length < 4 then .error .outOfBounds
          else match sscanf_4x ptr <|> codes.uc2 with
            | none => .error .indeterminate
            | some uc2 =>
              let ptr := ptr.drop 4
              if uc2 < 0xDC00 ∨ 0xDFFF < uc2 then .ok ([], ⟨some uc, some uc2⟩, ptr)
              else
                let (out, uc) :=
                  utf8 ((0x10000 : UInt32) + (((uc &&& 0x3FF) <<< 10) ||| (uc2 &&& 0x3FF)))
                .ok (out, ⟨some uc, some uc2⟩, ptr)
      else
        let (out, uc) := utf8 uc
        .ok (out, ⟨some uc, codes.uc2⟩, ptr)

/-- What a backslash and this character stand for. -/
def unescaped (c : UInt8) : UInt8 :=
  if c = 98 then 8
  else if c = 102 then 12
  else if c = 110 then 10
  else if c = 114 then 13
  else if c = 116 then 9
  else c

/-- The loop that writes. -/
def string_loop : Nat → Codes → Text → Except Crash (Text × Text)
  | 0, _, _ => .error .neverReturns
  | _ + 1, _, [] => .ok ([], [])
  | fuel + 1, codes, c :: ptr =>
    if c = 34 then .ok ([], c :: ptr)
    else if c ≠ 92 then do
      let (out, rest) ← string_loop fuel codes ptr
      return (c :: out, rest)
    else match ptr with
      | [] => .error .outOfBounds
      | e :: ptr =>
        if e = 117 then do
          let (here, codes, ptr) ← transcode codes ptr
          let (out, rest) ← string_loop fuel codes ptr
          return (here ++ out, rest)
        else do
          let (out, rest) ← string_loop fuel codes ptr
          return (unescaped e :: out, rest)

def parse_string : Text → Except Crash (Parsed Text)
  | 34 :: ptr => do
    let len ← string_len ptr
    let (out, rest) ← string_loop (ptr.length + 1) ⟨none, none⟩ ptr
    let out ← fill (len + 1) out
    return .found out (if rest.head? = some 34 then rest.tail else rest)
  | str => .ok (.refused (some str))

/-! ### Values -/

/-- The end of a note. `found_star` is whether the character before was a star. -/
def note_loop : Bool → Text → Result Unit
  | _, [] => .ok (.refused none)
  | found_star, c :: value =>
    if found_star ∧ c = 47 then .ok (.found () value) else note_loop (c = 42) value

mutual

def parse_value : Nat → Text → Result (cJSON Decimal)
  | 0, _ => .error .neverReturns
  | fuel + 1, value =>
    if [47, 42].isPrefixOf value then
      next (note_loop false value) fun _ rest => .ok (.found .cJSON_Note rest)
    else if [110, 117, 108, 108].isPrefixOf value then .ok (.found .cJSON_NULL (value.drop 4))
    else if [102, 97, 108, 115, 101].isPrefixOf value then .ok (.found .cJSON_False (value.drop 5))
    else if [116, 114, 117, 101].isPrefixOf value then .ok (.found .cJSON_True (value.drop 4))
    else match value with
      | [] => .ok (.refused (some value))
      | c :: rest =>
        if c = 34 then
          next (parse_string value) fun valuestring rest =>
            .ok (.found (.cJSON_String valuestring) rest)
        else if c = 45 ∨ is_digit c then
          let (n, rest) := parse_number value
          .ok (.found (.cJSON_Number n) rest)
        else if c = 91 then
          let value := skip rest
          if value.head? = some 93 then .ok (.found (.cJSON_Array []) value.tail)
          else next (parse_items fuel value) fun child rest =>
            .ok (.found (.cJSON_Array child) rest)
        else if c = 123 then
          let value := skip rest
          if value.head? = some 125 then .ok (.found (.cJSON_Object []) value.tail)
          else next (parse_members fuel value) fun child rest =>
            .ok (.found (.cJSON_Object child) rest)
        else .ok (.refused (some value))

/-- The items of an array, to its end. -/
def parse_items : Nat → Text → Result (List (cJSON Decimal))
  | 0, _ => .error .neverReturns
  | fuel + 1, value =>
    next (parse_value fuel (skip value)) fun child rest =>
      let value := skip rest
      if value.head? = some 44 then
        next (parse_items fuel value.tail) fun items rest => .ok (.found (child :: items) rest)
      else if value.head? = some 93 then .ok (.found [child] value.tail)
      else .ok (.refused (some value))

def parse_members : Nat → Text → Result (List (Text × cJSON Decimal))
  | 0, _ => .error .neverReturns
  | fuel + 1, value =>
    next (parse_string (skip value)) fun string rest =>
      let value := skip rest
      if value.head? ≠ some 58 then .ok (.refused (some value))
      else next (parse_value fuel (skip value.tail)) fun child rest =>
        let value := skip rest
        if value.head? = some 44 then
          next (parse_members fuel value.tail) fun items rest =>
            .ok (.found ((string, child) :: items) rest)
        else if value.head? = some 125 then .ok (.found [(string, child)] value.tail)
        else .ok (.refused (some value))

end

/-- Each level of the recursion has read a character, or went from the items to a value. -/
def cJSON_ParseWithOpts (value : Text) (require_null_terminated : Bool) :
    Result (cJSON Decimal) :=
  next (parse_value (2 * value.length + 2) (skip value)) fun c rest =>
    if require_null_terminated ∧ skip rest ≠ [] then .ok (.refused (some (skip rest)))
    else .ok (.found c (if require_null_terminated then [] else rest))

def cJSON_Parse (value : Text) : Result (cJSON Decimal) := cJSON_ParseWithOpts value false

end zonekey_mcu.cjson
