-- The AMF values of the FLV writer: a tree of numbers, texts and objects, written with
-- `atom_encode` and read with `atom_decode`. The reader of an object keeps the marker
-- that ends the object as one more property.
import ZonekeyMcu.Lib.BigEndian
import ZonekeyMcu.Fault

namespace zonekey_mcu.amf

open big_endian

/-- A text is the bytes of a `std::string`, and a number the eight bytes of a `double`. -/
inductive Atom
  | Number (val : UInt64)
  | Boolean (val : Bool)
  | String (val : List UInt8)
  | Object (val : List (List UInt8 × Atom))
  | Null
  | Undefined
  | MixArray (cnt : UInt32) (val : List (List UInt8 × Atom))
  | EndOfObject
  /-- A type that the reader has no decoder for. -/
  | unknown (type : UInt8)

/-- What ends the process in a call on a tree, or leaves its result undefined. -/
inductive Stop
  /-- A read after the end of the data. -/
  | outOfBounds
  /-- A read of a count that no decoder has set. -/
  | uninitialized
  | outOfFuel
  deriving DecidableEq

/-! ## The writer -/

/-- The length of a text or of a key, in two bytes, and its bytes. -/
def text_bytes (s : List UInt8) : List UInt8 := bytes_of 2 s.length ++ s

mutual

/-- The other types end the process with `exit(-1)`. -/
def atom_encode : Atom → Option (List UInt8)
  | .Number val => some (0 :: bytes_of 8 val.toNat)
  | .Boolean val => some [1, if val then 1 else 0]
  | .String val => some (2 :: text_bytes val)
  | .Object val => do
    let body ← encode_properties val
    some (3 :: (body ++ [0, 0, 9]))
  | .MixArray cnt val => do
    let body ← encode_properties val
    some (8 :: (bytes_of 4 cnt.toNat ++ body ++ [0, 0, 9]))
  | .Null => some [5]
  | .Undefined | .EndOfObject | .unknown _ => none

def encode_properties : List (List UInt8 × Atom) → Option (List UInt8)
  | [] => some []
  | (key, value) :: kvs => do
    let bytes ← atom_encode value
    let body ← encode_properties kvs
    some (text_bytes key ++ bytes ++ body)

end

/-! ## The reader -/

/-- The first `n` bytes at a pointer. -/
def read (n : Nat) (p : List UInt8) : Except Stop (List UInt8) :=
  if n ≤ p.length then .ok (p.take n) else .error .outOfBounds

/-- `ntohs(*(uint16_t*)p)`. -/
def ntohs (p : List UInt8) : Except Stop Nat := do
  let bytes ← read 2 p
  .ok (value_of bytes)

/-- A decoder gives the atom and the bytes that it used, if it sets them. The data
starts after the byte of the type. -/
def decode_number (data : List UInt8) : Except Stop (Atom × Option Nat) := do
  let d ← read 8 data
  .ok (.Number (UInt64.ofNat (value_of d)), some 9)

def decode_boolean (data : List UInt8) : Except Stop (Atom × Option Nat) := do
  let d ← read 1 data
  .ok (.Boolean (d != [0]), some 2)

def decode_string (data : List UInt8) : Except Stop (Atom × Option Nat) := do
  let strlen ← ntohs data
  let str ← read strlen (data.drop 2)
  .ok (.String str, some (strlen + 3))

def Atom.is_end_of_object : Atom → Bool
  | .EndOfObject => true
  | _ => false

mutual

/-- No atom is a refusal of the data. -/
def decode_at : Nat → List UInt8 → Int → Except Stop (Option (Atom × Option Nat))
  | 0, _, _ => .error .outOfFuel
  | _ + 1, [], _ => .error .outOfBounds
  | fuel + 1, type :: data, len =>
    match type.toNat with
    | 0 => do return some (← decode_number data)
    | 1 => do return some (← decode_boolean data)
    | 2 => do return some (← decode_string data)
    | 3 => decode_object fuel data len (len - 1) 1 []
    | 5 => .ok (some (.Null, some 1))
    | 6 => .ok (some (.Undefined, some 1))
    | 9 => .ok (some (.EndOfObject, some 1))
    -- decode_ERROR
    | _ => .ok (some (.unknown type, none))

/-- The loop of `decode_object`. -/
def decode_object : Nat → List UInt8 → Int → Int → Nat → List (List UInt8 × Atom) →
    Except Stop (Option (Atom × Option Nat))
  | 0, _, _, _, _, _ => .error .outOfFuel
  | fuel + 1, next, len, rest, used, val => do
    let strlen ← ntohs next
    if len - used < strlen then return none
    let key ← read strlen (next.drop 2)
    let next := next.drop (2 + strlen)
    let rest := rest - (2 + strlen)
    let used := used + (2 + strlen)
    match ← decode_at fuel next rest with
    | none => return none
    | some (_, none) => .error .uninitialized
    | some (value, some u) =>
      -- the marker is kept too, before it is looked at
      let val := val ++ [(key, value)]
      if value.is_end_of_object then return some (.Object val, some (used + u))
      decode_object fuel (next.drop u) len (rest - u) (used + u) val

end

/-- Every turn of the loop reads at least two bytes, so the data is enough fuel. -/
def atom_decode (data : List UInt8) (len : Nat) : Except Stop (Option (Atom × Option Nat)) :=
  decode_at (data.length + 1) data len

/-! ## Plain trees -/

mutual

/-- A tree that the format can carry: the texts and the keys have a length of two
bytes, and no key is empty. -/
def Plain : Atom → Prop
  | .Number _ | .Boolean _ | .Null => True
  | .String val => val.length < 65536
  | .Object val => PlainProperties val
  | .Undefined | .MixArray _ _ | .EndOfObject | .unknown _ => False

def PlainProperties : List (List UInt8 × Atom) → Prop
  | [] => True
  | (key, value) :: kvs =>
    key ≠ [] ∧ key.length < 65536 ∧ Plain value ∧ PlainProperties kvs

end

def Atom.is_object : Atom → Bool
  | .Object _ => true
  | _ => false

mutual

/-- What the reader makes of a tree: every object ends with its marker. -/
def marked : Atom → Atom
  | .Object val => .Object (marked_properties val)
  | .Number val => .Number val
  | .Boolean val => .Boolean val
  | .String val => .String val
  | .Null => .Null
  | .Undefined => .Undefined
  | .MixArray cnt val => .MixArray cnt val
  | .EndOfObject => .EndOfObject
  | .unknown type => .unknown type

def marked_properties : List (List UInt8 × Atom) → List (List UInt8 × Atom)
  | [] => [([], .EndOfObject)]
  | (key, value) :: kvs => (key, marked value) :: marked_properties kvs

end

mutual

/-- A plain tree is written. -/
theorem plain_encodes : ∀ t, Plain t → ∃ bytes, atom_encode t = some bytes
  | .Number _, _ => ⟨_, rfl⟩
  | .Boolean _, _ => ⟨_, rfl⟩
  | .String _, _ => ⟨_, rfl⟩
  | .Null, _ => ⟨_, rfl⟩
  | .Object val, h => by
    obtain ⟨body, hbody⟩ := plain_properties_encode val h
    refine ⟨3 :: (body ++ [0, 0, 9]), ?_⟩
    simp only [atom_encode, hbody, Option.bind_eq_bind, Option.bind_some]
  | .Undefined, h => h.elim
  | .MixArray _ _, h => h.elim
  | .EndOfObject, h => h.elim
  | .unknown _, h => h.elim

theorem plain_properties_encode :
    ∀ kvs, PlainProperties kvs → ∃ body, encode_properties kvs = some body
  | [], _ => ⟨_, rfl⟩
  | (key, value) :: kvs, h => by
    obtain ⟨-, -, hvalue, hkvs⟩ := h
    obtain ⟨bytes, hbytes⟩ := plain_encodes value hvalue
    obtain ⟨body, hbody⟩ := plain_properties_encode kvs hkvs
    refine ⟨text_bytes key ++ bytes ++ body, ?_⟩
    simp only [encode_properties, hbytes, hbody, Option.bind_eq_bind, Option.bind_some]

end

/-- No tree that was read is the one that was written, when it is an object. -/
theorem marked_eq_iff (t : Atom) : marked t = t ↔ t.is_object = false := by
  have more : ∀ kvs, (marked_properties kvs).length = kvs.length + 1 := by
    intro kvs
    induction kvs with
    | nil => rfl
    | cons kv kvs ih =>
      obtain ⟨key, value⟩ := kv
      rw [marked_properties, List.length_cons, ih, List.length_cons]
  cases t with
  | Object val =>
    refine iff_of_false ?_ Bool.noConfusion
    intro h
    rw [marked] at h
    injection h with h
    have hlen := congrArg List.length h
    rw [more val] at hlen
    omega
  | _ => exact iff_of_true rfl rfl

/-! ## The fuel -/

theorem read_ne_outOfFuel (n : Nat) (p : List UInt8) : read n p ≠ .error .outOfFuel := by
  unfold read
  split <;> simp

/-- A text of two bytes at least stands at a pointer that a length was read from. -/
theorem ntohs_cases (p : List UInt8) :
    ntohs p = .error .outOfBounds ∨ 2 ≤ p.length ∧ ntohs p = .ok (value_of (p.take 2)) := by
  unfold ntohs read
  split
  · rename_i h
    exact .inr ⟨h, rfl⟩
  · exact .inl rfl

theorem bind_ne_outOfFuel {α β : Type} {x : Except Stop α} {f : α → Except Stop β}
    (hx : x ≠ .error .outOfFuel) (hf : ∀ a, x = .ok a → f a ≠ .error .outOfFuel) :
    (x >>= f) ≠ .error .outOfFuel := by
  cases x with
  | ok a => exact hf a rfl
  | error e =>
    rw [error_bind]
    intro h
    injection h with h
    exact hx (h ▸ rfl)

/-- More fuel than bytes is enough, for a value and for the rest of an object. -/
theorem reader_has_fuel (fuel : Nat) :
    (∀ data len, data.length < fuel → decode_at fuel data len ≠ .error .outOfFuel) ∧
      ∀ next len left used val, next.length < fuel →
        decode_object fuel next len left used val ≠ .error .outOfFuel := by
  induction fuel with
  | zero => exact ⟨fun _ _ h => absurd h (Nat.not_lt_zero _),
      fun _ _ _ _ _ h => absurd h (Nat.not_lt_zero _)⟩
  | succ fuel ih =>
    obtain ⟨ihvalue, ihrest⟩ := ih
    constructor
    · intro data len hfuel
      cases data with
      | nil => simp [decode_at]
      | cons type data =>
        have hdata : data.length < fuel := Nat.lt_of_succ_lt_succ hfuel
        unfold decode_at
        split
        · exact bind_ne_outOfFuel (bind_ne_outOfFuel (read_ne_outOfFuel _ _) (by simp)) (by simp)
        · exact bind_ne_outOfFuel (bind_ne_outOfFuel (read_ne_outOfFuel _ _) (by simp)) (by simp)
        · refine bind_ne_outOfFuel (bind_ne_outOfFuel ?_ ?_) (by simp)
          · exact bind_ne_outOfFuel (read_ne_outOfFuel _ _) (by simp)
          · exact fun _ _ => bind_ne_outOfFuel (read_ne_outOfFuel _ _) (by simp)
        · exact ihrest _ _ _ _ _ hdata
        all_goals simp
    · intro next len left used val hfuel
      unfold decode_object
      rcases ntohs_cases next with hlen | ⟨htwo, hlen⟩
      · rw [hlen]
        simp
      · rw [hlen, ok_bind]
        have hdrop : ∀ n, (next.drop (2 + n)).length < fuel := by
          intro n
          rw [List.length_drop]
          omega
        split
        · simp
        · refine bind_ne_outOfFuel (read_ne_outOfFuel _ _) fun key _ => ?_
          refine bind_ne_outOfFuel (ihvalue _ _ (hdrop _)) fun value _ => ?_
          split
          · simp
          · simp
          · split
            · simp
            · refine ihrest _ _ _ _ _ ?_
              rw [List.length_drop]
              exact Nat.lt_of_le_of_lt (Nat.sub_le _ _) (hdrop _)

/-- The reader ends on every data. -/
theorem atom_decode_ends (data : List UInt8) (len : Nat) :
    atom_decode data len ≠ .error .outOfFuel :=
  (reader_has_fuel _).1 data len (Nat.lt_succ_self _)

/-! ## What the reader reads -/

theorem read_append {n : Nat} {bytes : List UInt8} (rest : List UInt8) (h : bytes.length = n) :
    read n (bytes ++ rest) = .ok bytes := by
  subst h
  unfold read
  rw [if_pos (by rw [List.length_append]; omega), List.take_left]

theorem ntohs_text {s : List UInt8} (rest : List UInt8) (h : s.length < 65536) :
    ntohs (text_bytes s ++ rest) = .ok s.length := by
  unfold ntohs text_bytes
  rw [List.append_assoc, read_append (s ++ rest) (length_bytes_of 2 s.length), ok_bind,
    value_of_bytes_of_lt h]

theorem drop_text (s rest : List UInt8) :
    (text_bytes s ++ rest).drop 2 = s ++ rest := by
  unfold text_bytes
  rw [List.append_assoc, List.drop_left' (length_bytes_of 2 s.length)]

theorem length_text_bytes (s : List UInt8) : (text_bytes s).length = 2 + s.length := by
  rw [text_bytes, List.length_append, length_bytes_of]

theorem decode_number_reads (val : UInt64) (rest : List UInt8) :
    decode_number (bytes_of 8 val.toNat ++ rest) = .ok (.Number val, some 9) := by
  unfold decode_number
  rw [read_append rest (length_bytes_of 8 val.toNat), ok_bind,
    value_of_bytes_of_lt val.toNat_lt, UInt64.ofNat_toNat]

theorem decode_boolean_reads (val : Bool) (rest : List UInt8) :
    decode_boolean ((if val then 1 else 0) :: rest) = .ok (.Boolean val, some 2) := by
  cases val <;> rfl

theorem decode_string_reads {val : List UInt8} (rest : List UInt8) (h : val.length < 65536) :
    decode_string (text_bytes val ++ rest) = .ok (.String val, some (val.length + 3)) := by
  unfold decode_string
  rw [ntohs_text rest h, ok_bind, drop_text, read_append rest rfl, ok_bind]

/-- One turn of the loop of an object, over a key that can be read. -/
theorem decode_object_text {key next : List UInt8} {fuel used : Nat} {len left : Int}
    (val : List (List UInt8 × Atom)) (hkey : key.length < 65536)
    (hle : (key.length : Int) ≤ len - used) :
    decode_object (fuel + 1) (text_bytes key ++ next) len left used val =
      (do
        match ← decode_at fuel next (left - (2 + key.length)) with
        | none => return none
        | some (_, none) => .error .uninitialized
        | some (value, some u) =>
          if value.is_end_of_object then
            return some (.Object (val ++ [(key, value)]), some (used + (2 + key.length) + u))
          decode_object fuel (next.drop u) len (left - (2 + key.length) - u)
            (used + (2 + key.length) + u) (val ++ [(key, value)])) := by
  have hnext : (text_bytes key ++ next).drop (2 + key.length) = next :=
    List.drop_left' (length_text_bytes key)
  rw [decode_object, ntohs_text next hkey, ok_bind, if_neg (by omega), drop_text,
    read_append next rfl, ok_bind, hnext]

theorem decode_object_turn {key next : List UInt8} {value : Atom} {fuel used u : Nat}
    {len left : Int} (val : List (List UInt8 × Atom)) (hkey : key.length < 65536)
    (hle : (key.length : Int) ≤ len - used)
    (hvalue : decode_at fuel next (left - (2 + key.length)) = .ok (some (value, some u))) :
    decode_object (fuel + 1) (text_bytes key ++ next) len left used val =
      if value.is_end_of_object then
        .ok (some (.Object (val ++ [(key, value)]), some (used + (2 + key.length) + u)))
      else
        decode_object fuel (next.drop u) len (left - (2 + key.length) - u)
          (used + (2 + key.length) + u) (val ++ [(key, value)]) := by
  rw [decode_object_text val hkey hle, hvalue]
  rfl

theorem not_end_of_object {t : Atom} (h : Plain t) : (marked t).is_end_of_object = false := by
  cases t with
  | EndOfObject => exact h.elim
  | _ => rfl

mutual

/-- The reader gives the marked tree and the length of the text, whatever comes after
the text. The induction follows the tree, and the fuel is at least the text. -/
theorem decode_at_encode : ∀ (t : Atom) (bytes rest : List UInt8) (fuel : Nat) (len : Int),
    Plain t → atom_encode t = some bytes → bytes.length ≤ fuel + 1 → (bytes.length : Int) ≤ len →
    decode_at (fuel + 1) (bytes ++ rest) len = .ok (some (marked t, some bytes.length))
  | .Number val, bytes, rest, fuel, len, _, henc, _, _ => by
    cases henc
    simp only [List.cons_append, decode_at]
    rw [decode_number_reads val rest]
    simp [marked]
  | .Boolean val, bytes, rest, fuel, len, _, henc, _, _ => by
    cases henc
    simp only [List.cons_append, List.nil_append, decode_at]
    rw [decode_boolean_reads val rest]
    simp [marked]
  | .String val, bytes, rest, fuel, len, h, henc, _, _ => by
    cases henc
    simp only [List.cons_append, decode_at]
    rw [decode_string_reads rest h]
    simp only [marked, List.length_cons, length_text_bytes, Nat.add_comm 2, Nat.add_assoc]
    rfl
  | .Null, bytes, rest, fuel, len, _, henc, _, _ => by
    cases henc
    rfl
  | .Object val, bytes, rest, fuel, len, h, henc, hfuel, hlen => by
    obtain ⟨body, hbody⟩ := plain_properties_encode val h
    simp only [atom_encode, hbody, Option.bind_eq_bind, Option.bind_some, Option.some.injEq]
      at henc
    subst henc
    simp only [List.length_cons, List.length_append, List.length_nil] at hfuel hlen
    have hloop := decode_object_encode val body rest fuel len (len - 1) 1 [] h hbody (by omega)
      (by push_cast at hlen ⊢; omega) rfl
    simp only [List.cons_append, List.append_assoc, decode_at]
    refine Eq.trans hloop ?_
    simp only [marked, List.nil_append, List.length_cons, List.length_append, List.length_nil,
      Nat.add_comm 1]

/-- The loop of an object appends the marked properties that are still to come. -/
theorem decode_object_encode : ∀ (kvs : List (List UInt8 × Atom)) (body rest : List UInt8)
    (fuel : Nat) (len left : Int) (used : Nat) (val : List (List UInt8 × Atom)),
    PlainProperties kvs → encode_properties kvs = some body → body.length + 3 ≤ fuel →
    (used + body.length + 3 : Int) ≤ len → left = len - used →
    decode_object fuel (body ++ ([0, 0, 9] ++ rest)) len left used val =
      .ok (some (.Object (val ++ marked_properties kvs), some (used + (body.length + 3))))
  | [], body, rest, fuel, len, left, used, val, _, henc, hfuel, hlen, _ => by
    cases henc
    simp only [List.length_nil] at hfuel hlen
    obtain ⟨fuel, rfl⟩ : ∃ f, fuel = f + 2 := ⟨fuel - 2, by omega⟩
    have hend : decode_at (fuel + 1) (9 :: rest) (left - (2 + ([] : List UInt8).length)) =
        .ok (some (.EndOfObject, some 1)) := rfl
    have hkey : text_bytes [] = [0, 0] := by decide
    have hle : (([] : List UInt8).length : Int) ≤ len - used := by
      rw [List.length_nil]
      omega
    have hturn := decode_object_turn val (by simp) hle hend
    rw [hkey] at hturn
    exact hturn
  | (key, value) :: kvs, body, rest, fuel, len, left, used, val, h, henc, hfuel, hlen, hleft => by
    obtain ⟨-, hkey, hvalue, hkvs⟩ := h
    obtain ⟨bytes, hbytes⟩ := plain_encodes value hvalue
    obtain ⟨body', hbody'⟩ := plain_properties_encode kvs hkvs
    simp only [encode_properties, hbytes, hbody', Option.bind_eq_bind, Option.bind_some,
      Option.some.injEq] at henc
    subst henc
    simp only [List.length_append, length_text_bytes] at hfuel hlen ⊢
    push_cast at hlen
    obtain ⟨fuel, rfl⟩ : ∃ f, fuel = f + 2 := ⟨fuel - 2, by omega⟩
    have hread := decode_at_encode value bytes (body' ++ ([0, 0, 9] ++ rest)) fuel
      (left - (2 + key.length)) hvalue hbytes (by omega) (by omega)
    rw [List.append_assoc, List.append_assoc, decode_object_turn val hkey (by omega) hread,
      not_end_of_object hvalue, if_neg Bool.false_ne_true, List.drop_left,
      decode_object_encode kvs body' rest (fuel + 1) len _ _ _ hkvs hbody' (by omega)
        (by push_cast; omega) (by push_cast; omega),
      marked_properties, List.append_assoc, List.singleton_append]
    congr 4
    omega

end

/-- The reader gives the marked tree, and always counts the bytes right. -/
theorem atom_decode_encode {t : Atom} {bytes : List UInt8} (h : Plain t)
    (henc : atom_encode t = some bytes) (rest : List UInt8) :
    atom_decode (bytes ++ rest) (bytes ++ rest).length =
      .ok (some (marked t, some bytes.length)) := by
  unfold atom_decode
  have hle : bytes.length ≤ (bytes ++ rest).length := by
    rw [List.length_append]
    omega
  exact decode_at_encode t bytes rest _ _ h henc (Nat.le_succ_of_le hle) (Int.ofNat_le.mpr hle)

/-! ## The law -/

/-- A plain tree reads back as it was written if and only if it is not an object: the
reader of an object keeps the end marker as a property that was never written. -/
theorem a_tree_reads_back_unless_it_is_an_object (t : Atom) (h : Plain t) :
    ∃ bytes, atom_encode t = some bytes ∧
      ∀ rest, (atom_decode (bytes ++ rest) (bytes ++ rest).length =
          .ok (some (t, some bytes.length)) ↔
        t.is_object = false) := by
  obtain ⟨bytes, henc⟩ := plain_encodes t h
  refine ⟨bytes, henc, ?_⟩
  intro rest
  rw [atom_decode_encode h henc rest, ← marked_eq_iff t]
  simp

/-- `{a: {b: 1.0, c: "ab"}, d: true, e: null}`. -/
def nested_tree : Atom :=
  .Object [([97], .Object [([98], .Number 0x3ff0000000000000), ([99], .String [97, 98])]),
    ([100], .Boolean true), ([101], .Null)]

/-- The text "ab" reads back, and a tree of all the types does not. -/
theorem a_tree_reads_back_unless_it_is_an_object_example :
    (Plain (.String [97, 98]) ∧
      ∃ bytes, atom_encode (.String [97, 98]) = some bytes ∧
        ∀ rest, atom_decode (bytes ++ rest) (bytes ++ rest).length =
          .ok (some (.String [97, 98], some bytes.length))) ∧
    Plain nested_tree ∧
      ∃ bytes, atom_encode nested_tree = some bytes ∧
        ∀ rest, atom_decode (bytes ++ rest) (bytes ++ rest).length ≠
          .ok (some (nested_tree, some bytes.length)) := by
  have htext : Plain (.String [97, 98]) := by simp [Plain]
  have htree : Plain nested_tree := by simp [nested_tree, Plain, PlainProperties]
  obtain ⟨text, htextenc, htextread⟩ := a_tree_reads_back_unless_it_is_an_object _ htext
  obtain ⟨bytes, henc, hread⟩ := a_tree_reads_back_unless_it_is_an_object _ htree
  refine ⟨⟨htext, text, htextenc, fun rest => (htextread rest).mpr rfl⟩, htree, bytes, henc,
    fun rest hsame => ?_⟩
  have hno : nested_tree.is_object = false := (hread rest).mp hsame
  cases hno

/-- The object `{a: null}` comes back with a second property. -/
theorem an_object_reads_back_with_its_marker :
    Plain (.Object [([97], .Null)]) ∧
      atom_encode (.Object [([97], .Null)]) = some [3, 0, 1, 97, 5, 0, 0, 9] ∧
      atom_decode [3, 0, 1, 97, 5, 0, 0, 9] 8 =
        .ok (some (.Object [([97], .Null), ([], .EndOfObject)], some 8)) ∧
      atom_decode [3, 0, 1, 97, 5, 0, 0, 9] 8 ≠
        .ok (some (.Object [([97], .Null)], some 8)) := by
  have h : Plain (.Object [([97], .Null)]) := ⟨by simp, by simp, trivial, trivial⟩
  have henc : atom_encode (.Object [([97], .Null)]) = some [3, 0, 1, 97, 5, 0, 0, 9] := by decide
  have hdec := atom_decode_encode h henc []
  refine ⟨h, henc, hdec, ?_⟩
  intro hread
  cases hdec.symm.trans hread

end zonekey_mcu.amf
