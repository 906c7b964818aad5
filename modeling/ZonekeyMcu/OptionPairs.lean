-- The options of a command as its reader takes them, against the plain reading of the text: the
-- pieces between `&`, each of them a key, a `=` and a value, and the last one counts.
import ZonekeyMcu.OptionCodec
import ZonekeyMcu.Lib.LastWins

open last_wins

namespace zonekey_mcu.options

/-! ## Options that are read -/

/-- No piece of the options is made of `=` alone. -/
def well_formed (options : Option String) : Prop :=
  ∀ text, options = some text → ∀ piece ∈ option_pieces text, ∃ ch ∈ piece, ch ≠ '='

theorem strtok_none {delim : Char} {cs : List Char} :
    strtok delim cs = none ↔ ∀ ch ∈ cs, ch = delim := by
  have hdrop : cs.dropWhile (· = delim) = [] ↔ ∀ ch ∈ cs, ch = delim := by
    rw [List.dropWhile_eq_nil_iff]
    exact forall₂_congr fun ch _ => decide_eq_true_iff
  rw [← hdrop]
  unfold strtok
  split
  · rename_i hnil
    exact iff_of_true rfl hnil
  · rename_i hcons
    refine iff_of_false (by simp) ?_
    rw [hcons]
    exact List.cons_ne_nil _ _

theorem parse_piece_cases (kvs : KVS) (piece : List Char) :
    ((∃ ch ∈ piece, ch ≠ '=') ∧ ∃ kvs', parse_piece kvs piece = .ok kvs') ∨
    (¬ (∃ ch ∈ piece, ch ≠ '=') ∧ parse_piece kvs piece = .error .assertFailed) := by
  unfold parse_piece
  split
  · rename_i hnone
    right
    refine ⟨?_, rfl⟩
    rintro ⟨ch, hch, hne⟩
    exact hne (strtok_none.mp hnone ch hch)
  · rename_i key rest hsome
    left
    refine ⟨?_, _, rfl⟩
    by_contra hno
    have hall : ∀ ch ∈ piece, ch = '=' := fun ch hch => by_contra fun hne => hno ⟨ch, hch, hne⟩
    rw [strtok_none.mpr hall] at hsome
    cases hsome

theorem pieces_cases (pieces : List (List Char)) (kvs : KVS) :
    ((∀ piece ∈ pieces, ∃ ch ∈ piece, ch ≠ '=') ∧
      ∃ kvs', pieces.foldlM parse_piece kvs = .ok kvs') ∨
    (¬ (∀ piece ∈ pieces, ∃ ch ∈ piece, ch ≠ '=') ∧
      pieces.foldlM parse_piece kvs = .error .assertFailed) := by
  induction pieces generalizing kvs with
  | nil => exact Or.inl ⟨fun _ h => absurd h List.not_mem_nil, kvs, rfl⟩
  | cons piece pieces ih =>
    rw [List.foldlM_cons]
    rcases parse_piece_cases kvs piece with ⟨hpiece, kvs', hok⟩ | ⟨hpiece, herr⟩
    · rw [hok, ok_bind]
      rcases ih kvs' with ⟨hall, hrest⟩ | ⟨hall, hrest⟩
      · exact Or.inl ⟨List.forall_mem_cons.mpr ⟨hpiece, hall⟩, hrest⟩
      · exact Or.inr ⟨fun h => hall (List.forall_mem_cons.mp h).2, hrest⟩
    · rw [herr, error_bind]
      exact Or.inr ⟨fun h => hpiece (List.forall_mem_cons.mp h).1, rfl⟩

/-- The assert on the key is the only way in which the options are not read. -/
theorem parse_options_cases (options : Option String) :
    (well_formed options ∧ ∃ params, util_parse_options options = .ok params) ∨
    (¬ well_formed options ∧ util_parse_options options = .error .assertFailed) := by
  cases options with
  | none => exact Or.inl ⟨fun text h => absurd h.symm (Option.some_ne_none text), [], rfl⟩
  | some text =>
    have hiff : well_formed (some text) ↔ ∀ piece ∈ option_pieces text, ∃ ch ∈ piece, ch ≠ '=' :=
      ⟨fun h => h text rfl, fun h _ heq => by cases heq; exact h⟩
    rw [hiff]
    exact pieces_cases (option_pieces text) []

/-! ## The plain reading -/

/-- The key before the first `=`, and the value after it. An empty key is none. -/
def pair_of (piece : List Char) : Option (String × String) :=
  if piece.takeWhile (· ≠ '=') = [] then none
  else some (String.ofList (piece.takeWhile (· ≠ '=')),
    String.ofList (piece.dropWhile (· ≠ '=')).tail)

/-- The pairs of the pieces that have a key. -/
def pairs_of (text : String) : List (String × String) := (option_pieces text).filterMap pair_of

/-- The map holds, under each key, the value of the last pair with that key. -/
structure Maps (kvs : KVS) (pairs : List (String × String)) : Prop where
  ordered : kvs.Ordered
  last : ∀ key, get_param_value kvs key = last key pairs

/-- The options are read, and the map has exactly their pairs. -/
def Parsed (text : String) : Prop :=
  ∃ kvs, util_parse_options (some text) = .ok kvs ∧ Maps kvs (pairs_of text)

/-! ## The reading with `strtok` -/

/-- What `strtok` makes of a piece: a key behind any `=` in front, and a value that ends before
a byte 1. -/
def token_pair (piece : List Char) : Option (String × String) :=
  (strtok '=' piece).map fun r => (String.ofList r.1,
    match strtok (Char.ofNat 1) r.2 with
    | some (value, _) => String.ofList value
    | none => "")

section

theorem parse_piece_eq (kvs : KVS) (piece : List Char) :
    parse_piece kvs piece = match token_pair piece with
      | none => .error .assertFailed
      | some (key, value) => .ok (KVS.set key value kvs) := by
  unfold parse_piece token_pair
  cases strtok '=' piece with
  | none => rfl
  | some r => rfl

theorem maps_set {kvs : KVS} {pairs : List (String × String)} (h : Maps kvs pairs)
    (key value : String) : Maps (KVS.set key value kvs) (pairs ++ [(key, value)]) := by
  refine ⟨set_keeps_ordered key value h.ordered, fun key' => ?_⟩
  rw [last_snoc]
  by_cases hkey : key = key'
  · subst hkey
    rw [if_pos rfl, get_set_self]
  · rw [if_neg hkey, get_set_ne value (Ne.symm hkey)]
    exact h.last key'

/-- The map of the pieces that are read. -/
theorem pieces_map {pieces : List (List Char)} {kvs kvs' : KVS} {pairs : List (String × String)}
    (h : Maps kvs pairs) (hread : pieces.foldlM parse_piece kvs = .ok kvs') :
    Maps kvs' (pairs ++ pieces.filterMap token_pair) := by
  induction pieces generalizing kvs pairs with
  | nil =>
    cases hread
    rwa [List.filterMap_nil, List.append_nil]
  | cons piece pieces ih =>
    rw [List.foldlM_cons, parse_piece_eq] at hread
    cases hpair : token_pair piece with
    | none =>
      rw [hpair] at hread
      cases hread
    | some pair =>
      obtain ⟨key, value⟩ := pair
      rw [hpair] at hread
      have hrest := ih (maps_set h key value) hread
      rwa [List.append_assoc, List.singleton_append, ← List.filterMap_cons_some hpair] at hrest

/-- Options that are read give the map of their tokens. -/
theorem parsed_iff (text : String) :
    Parsed text ↔ well_formed (some text) ∧
      ∀ key, last key ((option_pieces text).filterMap token_pair) = last key (pairs_of text) := by
  unfold Parsed
  rcases parse_options_cases (some text) with ⟨hformed, kvs, hread⟩ | ⟨hformed, herr⟩
  · have hmap := pieces_map (⟨List.Pairwise.nil, fun _ => rfl⟩ : Maps [] []) hread
    rw [List.nil_append] at hmap
    constructor
    · rintro ⟨kvs', hread', hmaps⟩
      rw [hread] at hread'
      cases hread'
      exact ⟨hformed, fun key => (hmap.last key).symm.trans (hmaps.last key)⟩
    · rintro ⟨-, hlast⟩
      exact ⟨kvs, hread, hmap.ordered, fun key => (hmap.last key).trans (hlast key)⟩
  · rw [herr]
    exact iff_of_false (not_exists_error _ _) fun h => hformed h.1

/-! ## Where both readings agree -/

/-- The value that ends before a byte 1 is the whole value when there is none in it. -/
theorem value_token_iff (value : List Char) :
    (match strtok (Char.ofNat 1) value with
      | some (token, _) => String.ofList token
      | none => "") = String.ofList value ↔ Char.ofNat 1 ∉ value := by
  constructor
  · intro h
    unfold strtok at h
    split at h
    · rename_i token rest htoken
      split at htoken
      · cases htoken
      · cases htoken
        rw [← String.ofList_injective h]
        intro hmem
        simpa using List.mem_takeWhile_imp hmem
    · rw [← String.ofList_injective (h : String.ofList [] = _)]
      exact List.not_mem_nil
  · intro h
    cases value with
    | nil => rfl
    | cons c value => rw [strtok_whole (List.cons_ne_nil _ _) h]

/-- A piece with a key gives the same key to `strtok`, and its value up to a byte 1. -/
theorem keyed_token {piece : List Char} {key value : String}
    (h : pair_of piece = some (key, value)) : ∃ token, token_pair piece = some (key, token) ∧
      (token = value ↔ Char.ofNat 1 ∉ value.toList) := by
  unfold pair_of at h
  split at h
  · cases h
  · rename_i hne
    cases h
    rw [String.toList_ofList, ← value_token_iff]
    refine ⟨_, ?_, Iff.rfl⟩
    have hfront : piece.dropWhile (· = '=') = piece := by
      cases piece with
      | nil => rfl
      | cons c piece =>
        have hc : ¬ c = '=' := fun hc => hne (by simp [hc])
        simp [hc]
    cases piece with
    | nil => exact absurd rfl hne
    | cons c piece => simp only [token_pair, strtok, hfront, Option.map_some]

/-- The last piece that gives a key is a pair without a byte 1 in its value. Or it has no key of
its own, because a `=` stands in front, and repeats the value that the key has before it. -/
def Plain (text : String) : Prop :=
  ∀ front piece back key value, option_pieces text = front ++ piece :: back →
    token_pair piece = some (key, value) →
    (∀ later ∈ back, ∀ other, token_pair later ≠ some (key, other)) →
    match pair_of piece with
    | some pair => Char.ofNat 1 ∉ pair.2.toList
    | none => last key (front.filterMap pair_of) = some value

/-- Options are read as the pairs of their pieces exactly when no piece is made of `=` alone, and
the last piece with a key is plain. -/
theorem the_options_are_their_pairs_iff_they_are_plain (text : String) :
    Parsed text ↔ well_formed (some text) ∧ Plain text := by
  rw [parsed_iff, pairs_of, same_last_iff fun piece key value h => ?_]
  · refine and_congr_right fun _ => ?_
    refine forall_congr' fun front => forall_congr' fun piece => forall_congr' fun back =>
      forall_congr' fun key => forall_congr' fun value => imp_congr_right fun _ =>
      imp_congr_right fun htoken => imp_congr_right fun _ => ?_
    cases hpair : pair_of piece with
    | none => exact Iff.rfl
    | some pair =>
      obtain ⟨token, htoken', hiff⟩ := keyed_token hpair
      rw [htoken] at htoken'
      cases htoken'
      exact eq_comm.trans hiff
  · obtain ⟨token, htoken, -⟩ := keyed_token h
    exact ⟨token, htoken⟩

end

/-- A piece of `=` alone stops the server. A piece that starts with `=` gives a key that it does
not have. -/
theorem a_piece_without_a_key_is_not_read :
    util_parse_options (some "=") = .error .assertFailed ∧ ¬ Parsed "=" ∧
      util_parse_options (some "=v") = .ok [("v", "")] ∧ pairs_of "=v" = [] := by
  refine ⟨by decide +kernel, ?_, by decide +kernel, by decide +kernel⟩
  rintro ⟨kvs, hread, -⟩
  rw [show util_parse_options (some "=") = .error .assertFailed by decide +kernel] at hread
  cases hread

end zonekey_mcu.options
