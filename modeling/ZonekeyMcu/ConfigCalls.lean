-- The calls of a configuration after its load. `set` takes a text, an int or a double, and the
-- two numbers go through a buffer of a fixed size.
import ZonekeyMcu.KVConfig
import ZonekeyMcu.Lib.Runs
import Mathlib.Tactic.Ring

open zonekey_mcu.options zonekey_mcu.kv_config runs

namespace zonekey_mcu.config_calls

/-! ## Numbers as text -/

/-- `snprintf` leaves room for the final 0. -/
def snprintf (size : Nat) (text : String) : String :=
  String.ofList (text.toList.take (size - 1))

/-- `n / d`, to the nearest number, and to the even one of two. -/
def round_half_even (n d : Nat) : Nat :=
  let q := n / d
  let r := n % d
  if d < 2 * r ∨ (2 * r = d ∧ q % 2 = 1) then q + 1 else q

/-- `m * 2 ^ e` in units of the tenth decimal. -/
def tenth_decimals (m : Nat) (e : Int) : Nat :=
  if 0 ≤ e then m * 10 ^ 10 * 2 ^ e.toNat
  else round_half_even (m * 10 ^ 10) (2 ^ (-e).toNat)

/-- A number with ten decimals. -/
def ten_decimals (n : Nat) : String :=
  let decimals := (n % 10 ^ 10).repr
  (n / 10 ^ 10).repr ++ "." ++ String.ofList (List.replicate (10 - decimals.length) '0') ++ decimals

/-- `%.10f` of the double with these bits: the sign, the exponent and the fraction. -/
def format_f (bits : BitVec 64) : String :=
  let sign := if bits.msb then "-" else ""
  let exponent := bits.toNat / 2 ^ 52 % 2 ^ 11
  let fraction := bits.toNat % 2 ^ 52
  if exponent = 2047 then sign ++ if fraction = 0 then "inf" else "nan"
  else if exponent = 0 then sign ++ ten_decimals (tenth_decimals fraction (-1074))
  else sign ++ ten_decimals (tenth_decimals (2 ^ 52 + fraction) (Int.ofNat exponent - 1075))

/-- `%d`. -/
def format_d (value : BitVec 32) : String := value.toInt.repr

/-! ## The calls -/

/-- The last argument of the three overloads of `set`. -/
inductive Value
  | text (value : String)
  | int (value : BitVec 32)
  | double (bits : BitVec 64)
  deriving DecidableEq, Repr

/-- The whole text of a value. -/
def Value.to_text : Value → String
  | .text value => value
  | .int value => format_d value
  | .double bits => format_f bits

/-- The text that `set` puts into the map. -/
def Value.stored : Value → String
  | .text value => value
  | .int value => snprintf 16 (format_d value)
  | .double bits => snprintf 32 (format_f bits)

/-- `none` is a null pointer. -/
def get (kvs : KVS) (key : String) (dflt : Option String) : Option String :=
  match kvs.find? fun kv => kv.1 = key with
  | none => dflt
  | some itf => some itf.1

inductive Call
  | set (key : String) (value : Value)
  | del (key : String)
  | get (key : String) (dflt : Option String)
  deriving DecidableEq, Repr

/-- `latest` is the value that was most recently set for each key, since its last deletion.
`returned` is what the calls of `get` returned, and `due` what they should have. -/
structure Config where
  kvs : KVS
  latest : String → Option Value
  returned : List (Option String)
  due : List (Option String)

/-- A load sets the texts that it reads. -/
def Config.start (loaded : KVS) : Config where
  kvs := loaded
  latest key := (get_param_value loaded key).map .text
  returned := []
  due := []

def step (c : Config) : Call → Except Fault Config
  | .set key value => .ok { c with
      kvs := KVS.set key value.stored c.kvs
      latest := Function.update c.latest key (some value) }
  | .del key => .ok { c with
      kvs := kv_config.call c.kvs (.del key)
      latest := Function.update c.latest key none }
  | .get key dflt => .ok { c with
      returned := c.returned ++ [get c.kvs key dflt]
      due := c.due ++ [((c.latest key).map Value.to_text).or dflt] }

/-! ## The property -/

/-- Each `get` returned the value that was due. -/
def Answered (c : Config) : Prop := c.returned = c.due

instance (c : Config) : Decidable (Answered c) :=
  inferInstanceAs (Decidable (c.returned = c.due))

/-- A `get` asks for a key that has no value, or whose value is the key itself. -/
def Spared (c : Config) : Call → Prop
  | .get key _ => ∀ value, c.latest key = some value → value.to_text = key
  | _ => True

/-! ## The map -/

section

variable {kvs : KVS} {key key' : String} {c c' : Config}

theorem get_erase_self (kvs : KVS) (key : String) :
    get_param_value (kvs_erase kvs key) key = none := by
  unfold get_param_value kvs_erase
  rw [List.find?_filter]
  simp

theorem get_erase_ne (kvs : KVS) (h : key' ≠ key) :
    get_param_value (kvs_erase kvs key) key' = get_param_value kvs key' := by
  unfold get_param_value kvs_erase
  rw [List.find?_filter]
  congr 2
  funext kv
  by_cases hkey : kv.1 = key'
  · simp [hkey, h]
  · simp [hkey]

theorem get_del_self (kvs : KVS) (key : String) :
    get_param_value (kv_config.call kvs (.del key)) key = none := by
  unfold kv_config.call
  dsimp only
  split
  · assumption
  · exact get_erase_self kvs key

theorem get_del_ne (kvs : KVS) (h : key' ≠ key) :
    get_param_value (kv_config.call kvs (.del key)) key' = get_param_value kvs key' := by
  unfold kv_config.call
  dsimp only
  split
  · rfl
  · exact get_erase_ne kvs h

/-- The map holds what `set` put into it. -/
def Stored (c : Config) : Prop :=
  ∀ key, get_param_value c.kvs key = (c.latest key).map Value.stored

theorem start_stored (loaded : KVS) : Stored (Config.start loaded) := by
  intro key
  cases hget : get_param_value loaded key with
  | none => simp [Config.start, hget]
  | some value => simp [Config.start, hget, Value.stored]

theorem step_stored {a : Call} (h : Stored c) (hstep : step c a = .ok c') : Stored c' := by
  intro key
  cases a with
  | set key' value =>
    cases hstep
    by_cases hkey : key = key'
    · subst hkey
      simp [get_set_self]
    · simp [get_set_ne _ hkey, hkey, h key]
  | del key' =>
    cases hstep
    by_cases hkey : key = key'
    · subst hkey
      simp [get_del_self]
    · simp [get_del_ne _ hkey, hkey, h key]
  | get key' dflt =>
    cases hstep
    exact h key

/-! ## The texts that the buffers hold -/

theorem snprintf_fits {size : Nat} {text : String} (h : text.length < size) :
    snprintf size text = text := by
  have hle : text.toList.length ≤ size - 1 := by
    rw [String.length_toList]
    omega
  rw [snprintf, List.take_of_length_le hle, String.ofList_toList]

/-- An `int` has at most eleven characters. -/
theorem format_d_length (value : BitVec 32) : (format_d value).length ≤ 11 := by
  have hhi : value.toInt < 2 ^ 31 := by simpa using BitVec.toInt_lt (x := value)
  have hlo : -2 ^ 31 ≤ value.toInt := by simpa using BitVec.le_toInt (x := value)
  unfold format_d
  cases hv : value.toInt with
  | ofNat n =>
    rw [hv, Int.ofNat_eq_natCast] at hhi
    have hn : n < 10 ^ 11 := by omega
    exact (Nat.length_repr_le_iff (by decide)).mpr hn
  | negSucc n =>
    rw [hv, Int.negSucc_eq] at hlo
    have hn : n + 1 < 10 ^ 10 := by omega
    have hlen : n.succ.repr.length ≤ 10 := (Nat.length_repr_le_iff (by decide)).mpr hn
    simp only [Int.repr, String.length_append]
    have hsign : "-".length = 1 := by decide
    omega

/-- Only a long double is cut. -/
theorem stored_is_the_text {value : Value}
    (h : ∀ bits, value = .double bits → (format_f bits).length < 32) :
    value.stored = value.to_text := by
  cases value with
  | text value => rfl
  | int value => exact snprintf_fits (Nat.lt_of_le_of_lt (format_d_length value) (by decide))
  | double bits => exact snprintf_fits (h bits rfl)

/-! ## What a call of `get` returns -/

theorem get_absent (dflt : Option String) (h : get_param_value kvs key = none) :
    get kvs key dflt = dflt := by
  unfold get
  rw [Option.map_eq_none_iff.mp h]

/-- The key that it was asked for. -/
theorem get_present (dflt : Option String) {value : String}
    (h : get_param_value kvs key = some value) : get kvs key dflt = some key := by
  obtain ⟨kv, hfind, -⟩ := Option.map_eq_some_iff.mp h
  unfold get
  rw [hfind]
  have hkey := List.find?_some hfind
  exact congrArg some (of_decide_eq_true hkey)

theorem get_is_due_iff (h : Stored c) (key : String) (dflt : Option String) :
    get c.kvs key dflt = ((c.latest key).map Value.to_text).or dflt ↔
      Spared c (.get key dflt) := by
  have hkey := h key
  cases hl : c.latest key with
  | none =>
    rw [hl] at hkey
    rw [get_absent dflt hkey]
    simp [Spared, hl]
  | some value =>
    rw [hl] at hkey
    rw [get_present dflt hkey]
    simp [Spared, hl, eq_comm]

/-! ## The calls in order -/

structure Inv (c : Config) : Prop where
  stored : Stored c
  answered : Answered c

theorem spared_keeps {a : Call} (h : Inv c) (hc : Spared c a) :
    ∃ c', step c a = .ok c' ∧ Inv c' := by
  obtain ⟨c', hstep⟩ : ∃ c', step c a = .ok c' := by
    cases a with
    | set key value => exact ⟨_, rfl⟩
    | del key => exact ⟨_, rfl⟩
    | get key dflt => exact ⟨_, rfl⟩
  refine ⟨c', hstep, step_stored h.stored hstep, ?_⟩
  cases a with
  | set key value =>
    cases hstep
    exact h.answered
  | del key =>
    cases hstep
    exact h.answered
  | get key dflt =>
    cases hstep
    have hdue := (get_is_due_iff h.stored key dflt).mpr hc
    have hans : c.returned = c.due := h.answered
    simp only [Answered, hans, hdue]

theorem answered_was_spared {a : Call} (h : Inv c) (hstep : step c a = .ok c')
    (hans : Answered c') : Spared c a := by
  cases a with
  | set key value => trivial
  | del key => trivial
  | get key dflt =>
    cases hstep
    have hpre : c.returned = c.due := h.answered
    unfold Answered at hans
    rw [hpre] at hans
    have hlast := List.append_cancel_left hans
    exact (get_is_due_iff h.stored key dflt).mp (List.head_eq_of_cons_eq hlast)

end

/-! ## The law -/

/-- Each call of `get` returns the value that was last set, or the default, exactly when no
call asks for a key that has another value than the key itself. -/
theorem a_get_returns_the_value_only_if_it_is_the_key (loaded : KVS) (calls : List Call) :
    Along step Answered (Config.start loaded) calls ↔
      Meets step Spared (Config.start loaded) calls :=
  along_iff_meets (I := Inv) (fun _ h => h.answered) (fun _ _ h => spared_keeps h)
    (fun _ _ _ h hstep hans => answered_was_spared h hstep hans) calls
    ⟨start_stored loaded, rfl⟩

/-- The name of the key comes back instead of the volume. -/
theorem a_get_returns_the_name_of_the_key :
    run step (Config.start []) [.set "volume" (.int 5), .get "volume" (some "1")] =
        .ok { kvs := [("volume", "5")]
              latest := Function.update (Config.start []).latest "volume" (some (.int 5))
              returned := [some "volume"], due := [some "5"] } ∧
      ¬ ∀ (loaded : KVS) (calls : List Call),
        Along step Answered (Config.start loaded) calls := by
  refine ⟨rfl, fun hall => ?_⟩
  have h := along_end (hall [] [.set "volume" (.int 5), .get "volume" (some "1")]) rfl
  exact absurd h (by decide)

end zonekey_mcu.config_calls
