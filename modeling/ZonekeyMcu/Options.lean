-- The options of a command and of its answer: pairs of a key and a value, in the
-- order of the keys. On the wire they are one text, `key=value&key=value`.
import ZonekeyMcu.Fault

namespace zonekey_mcu.options

abbrev KVS := List (String × String)

/-- `kvs[key] = value`. -/
def KVS.set (key value : String) : KVS → KVS
  | [] => [(key, value)]
  | (k, v) :: kvs =>
    if key = k then (key, value) :: kvs
    else if key < k then (key, value) :: (k, v) :: kvs
    else (k, v) :: KVS.set key value kvs

/-- `get_param_value`. -/
def get_param_value (kvs : KVS) (key : String) : Option String :=
  (kvs.find? fun kv => kv.1 = key).map (·.2)

/-- `kvs[key]`: an absent key reads as the empty text. -/
def param (kvs : KVS) (key : String) : String := (get_param_value kvs key).getD ""

/-- The text of the first key that is absent, if `chk_params` is false. -/
def chk_params (kvs : KVS) : List String → Option String
  | [] => none
  | key :: keys =>
    if (get_param_value kvs key).isSome then chk_params kvs keys
    else some ("'" ++ key ++ "' not found")

/-- The optional texts `desc` and `who`. -/
def param_or_empty (kvs : KVS) (key : String) : String :=
  match chk_params kvs [key] with
  | none => param kvs key
  | some _ => ""

/-! ## The text of the options -/

/-- `strtok` with one delimiter: the next token, and the text after it. -/
def strtok (delim : Char) (cs : List Char) : Option (List Char × List Char) :=
  match cs.dropWhile (· = delim) with
  | [] => none
  | c :: cs =>
    some ((c :: cs).takeWhile (· ≠ delim), ((c :: cs).dropWhile (· ≠ delim)).tail)

/-- The pieces between `&`. An empty piece is skipped. -/
def option_pieces (options : String) : List (List Char) :=
  (options.toList.splitOn '&').filter (· ≠ [])

/-- One piece: the key before the first `=`, and the value after it. -/
def parse_piece (kvs : KVS) (piece : List Char) : Except Fault KVS :=
  match strtok '=' piece with
  -- assert(key)
  | none => .error .assertFailed
  | some (key, rest) =>
    let value := match strtok (Char.ofNat 1) rest with
      | some (value, _) => String.ofList value
      | none => ""
    .ok (KVS.set (String.ofList key) value kvs)

def util_parse_options (options : Option String) : Except Fault KVS :=
  match options with
  | none => .ok []
  | some options => (option_pieces options).foldlM parse_piece []

def util_encode_options : KVS → String
  | [] => ""
  | (key, value) :: kvs => key ++ "=" ++ value ++ "&" ++ util_encode_options kvs

/-! ## Numbers -/

/-- The number that the leading digits give. -/
def leading_digits : Nat → List Char → Nat
  | n, c :: cs => if c.isDigit then leading_digits (10 * n + (c.toNat - '0'.toNat)) cs else n
  | n, [] => n

/-- A number as an `int` holds it, with the ends for what is outside. -/
def clamp_int (n : Int) : Int := max (-2147483648) (min 2147483647 n)

def is_space (c : Char) : Bool :=
  c == ' ' || c == '\t' || c == '\n' || c == '\r' || c.toNat == 11 || c.toNat == 12

/-- `atoi`: spaces, a sign, and digits. Other text reads as 0. -/
def atoi (s : String) : Int :=
  match s.toList.dropWhile is_space with
  | '-' :: cs => clamp_int (-(leading_digits 0 cs))
  | '+' :: cs => clamp_int (leading_digits 0 cs)
  | cs => clamp_int (leading_digits 0 cs)

/-- `atoi(kvs[key].c_str())`. -/
def param_i (kvs : KVS) (key : String) : Int := atoi (param kvs key)

/-- The text of `"%d"`. -/
def text_i (n : Int) : String := toString n

/-! ## The laws -/

/-- A key that was just set reads as its new value. -/
theorem get_set_self (key value : String) (kvs : KVS) :
    get_param_value (KVS.set key value kvs) key = some value := by
  induction kvs with
  | nil => simp [KVS.set, get_param_value]
  | cons kv kvs ih =>
    obtain ⟨k, v⟩ := kv
    unfold KVS.set
    split
    · simp [get_param_value]
    · rename_i hk
      split
      · simp [get_param_value]
      · have hk' : ¬ k = key := fun h => hk h.symm
        simpa [get_param_value, hk'] using ih

theorem get_set_ne {key key' : String} (value : String) (h : key' ≠ key) (kvs : KVS) :
    get_param_value (KVS.set key value kvs) key' = get_param_value kvs key' := by
  have h' : ¬ key = key' := fun hk => h hk.symm
  induction kvs with
  | nil => simp [KVS.set, get_param_value, h']
  | cons kv kvs ih =>
    obtain ⟨k, v⟩ := kv
    unfold KVS.set
    split
    · rename_i hk
      subst hk
      simp [get_param_value, h']
    · split
      · simp [get_param_value, h']
      · by_cases hk : k = key'
        · simp [get_param_value, hk]
        · simpa [get_param_value, hk] using ih

/-- The keys that a check asks for are there when it passes. -/
theorem chk_params_none {kvs : KVS} {keys : List String} :
    chk_params kvs keys = none ↔ ∀ key ∈ keys, (get_param_value kvs key).isSome = true := by
  induction keys with
  | nil => simp [chk_params]
  | cons key keys ih =>
    unfold chk_params
    by_cases h : (get_param_value kvs key).isSome = true
    · simp [h, ih]
    · simp [h]

example : atoi " -12x" = -12 := by decide
example : chk_params [("cid", "1")] ["cid", "payload"] = some "'payload' not found" := by decide

end zonekey_mcu.options
