-- The log of the server. The finished line is itself given to `fprintf` as its
-- format, so a '%' of a text in the line converts an argument that is not there.
import ZonekeyMcu.Fault
import ZonekeyMcu.Options

open zonekey_mcu.options

namespace zonekey_mcu.logging

/-- A format that converts an argument: some '%' is not followed by a second one. -/
def has_conversion : List Char → Bool
  | '%' :: '%' :: format => has_conversion format
  | '%' :: _ => true
  | _ :: format => has_conversion format
  | [] => false

/-- `char buf[1024]`. The time that `log` puts in front fits beside it in `buf2`. -/
def BUF_SIZE : Nat := 1024

/-- The line that `vsnprintf` has made is the format of the next `fprintf`. -/
def log (line : List Char) : Except Fault Unit :=
  if has_conversion (line.take (BUF_SIZE - 1)) then .error .missingArgument else .ok ()

/-- The line is printed as it is. -/
def Printable (line : List Char) : Prop := has_conversion (line.take (BUF_SIZE - 1)) = false

instance (line : List Char) : Decidable (Printable line) := by
  unfold Printable
  infer_instance

theorem log_cases (line : List Char) :
    (Printable line ∧ log line = .ok ()) ∨
      (¬ Printable line ∧ log line = .error .missingArgument) := by
  unfold log Printable
  cases has_conversion (line.take (BUF_SIZE - 1)) with
  | false => exact Or.inl ⟨rfl, rfl⟩
  | true => exact Or.inr ⟨by decide, rfl⟩

theorem log_printable {line : List Char} (h : Printable line) : log line = .ok () := by
  unfold log
  rw [if_neg (by rw [h]; decide)]

/-! ## Texts without a '%' -/

def Bare (text : String) : Prop := '%' ∉ text.toList

instance (text : String) : Decidable (Bare text) := by
  unfold Bare
  infer_instance

/-- Keys and values. -/
def BareMap (kvs : KVS) : Prop := ∀ kv ∈ kvs, Bare kv.1 ∧ Bare kv.2

theorem no_conversion {format : List Char} (h : '%' ∉ format) : has_conversion format = false := by
  fun_induction has_conversion format with
  | case1 format ih => exact absurd List.mem_cons_self h
  | case2 rest hne => exact absurd List.mem_cons_self h
  | case3 c format hne1 hne2 ih => exact ih fun hm => h (List.mem_cons_of_mem c hm)
  | case4 => rfl

theorem printable_of_bare {line : List Char} (h : '%' ∉ line) : Printable line :=
  no_conversion fun hm => h (List.mem_of_mem_take hm)

theorem bare_append {s t : String} (hs : Bare s) (ht : Bare t) : Bare (s ++ t) := by
  unfold Bare
  rw [String.toList_append, List.mem_append]
  exact fun h => h.elim hs ht

theorem bare_foldl {texts : List String} {s : String} (hs : Bare s)
    (h : ∀ text ∈ texts, Bare text) : Bare (texts.foldl (· ++ ·) s) := by
  induction texts generalizing s with
  | nil => exact hs
  | cons text texts ih =>
    exact ih (bare_append hs (h text List.mem_cons_self)) fun t ht =>
      h t (List.mem_cons_of_mem text ht)

theorem bare_join {texts : List String} (h : ∀ text ∈ texts, Bare text) :
    Bare (String.join texts) := bare_foldl (by decide) h

theorem bare_nil : BareMap [] := fun _ h => absurd h List.not_mem_nil

theorem bare_set {key value : String} {kvs : KVS} (hkey : Bare key) (hvalue : Bare value)
    (h : BareMap kvs) : BareMap (KVS.set key value kvs) := by
  induction kvs with
  | nil =>
    intro kv hkv
    rw [List.mem_singleton.mp hkv]
    exact ⟨hkey, hvalue⟩
  | cons kv kvs ih =>
    obtain ⟨k, v⟩ := kv
    have hrest : BareMap kvs := fun kv hkv => h kv (List.mem_cons_of_mem _ hkv)
    have hhead := h (k, v) List.mem_cons_self
    unfold KVS.set
    split
    · exact List.forall_mem_cons.mpr ⟨⟨hkey, hvalue⟩, hrest⟩
    · split
      · exact List.forall_mem_cons.mpr ⟨⟨hkey, hvalue⟩, h⟩
      · exact List.forall_mem_cons.mpr ⟨hhead, ih hrest⟩

theorem bare_encode {kvs : KVS} (h : BareMap kvs) : Bare (util_encode_options kvs) := by
  induction kvs with
  | nil => exact List.not_mem_nil
  | cons kv kvs ih =>
    obtain ⟨k, v⟩ := kv
    obtain ⟨hk, hv⟩ := h (k, v) List.mem_cons_self
    have hrest := ih fun kv hkv => h kv (List.mem_cons_of_mem _ hkv)
    unfold util_encode_options
    have heq : Bare "=" := by decide
    have hand : Bare "&" := by decide
    exact bare_append (bare_append (bare_append (bare_append hk heq) hv) hand) hrest

theorem bare_repr (k : Nat) : Bare (Nat.repr k) := by
  intro hm
  unfold Nat.repr at hm
  rw [String.toList_ofList] at hm
  exact absurd (Nat.isDigit_of_mem_toDigits (by decide) (by decide) hm) (by decide)

theorem bare_text_i (n : Int) : Bare (text_i n) := by
  cases n with
  | ofNat k => exact bare_repr k
  | negSucc k => exact bare_append (by decide : Bare "-") (bare_repr (k + 1))

/-- The text of a key that is missing names the key only. -/
theorem bare_chk_params {params : KVS} {keys : List String} {info : String}
    (hkeys : ∀ key ∈ keys, Bare key) (h : chk_params params keys = some info) : Bare info := by
  induction keys with
  | nil => cases h
  | cons key keys ih =>
    unfold chk_params at h
    split at h
    · exact ih (fun k hk => hkeys k (List.mem_cons_of_mem _ hk)) h
    · cases h
      have hquote : Bare "'" := by decide
      have htail : Bare "' not found" := by decide
      exact bare_append (bare_append hquote (hkeys key List.mem_cons_self)) htail

end zonekey_mcu.logging
