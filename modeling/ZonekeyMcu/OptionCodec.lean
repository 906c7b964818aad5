-- The text that carries the options of every command and of every answer, read back:
-- `util_parse_options` after `util_encode_options`. The reader splits the text twice
-- with `strtok`, which never gives an empty token and skips a run of delimiters.
import ZonekeyMcu.Options
import Mathlib.Data.List.TakeWhile

namespace zonekey_mcu.options

/-- `c_str()`: the reader sees the text up to its first NUL. -/
def c_str (s : String) : String := String.ofList (s.toList.takeWhile (· ≠ Char.ofNat 0))

/-- The keys of a `std::map` stand in ascending order, each of them once. -/
def KVS.Ordered (kvs : KVS) : Prop := (kvs.map (·.1)).Pairwise (· < ·)

/-- The text of one pair, without the `&` after it. -/
def pair_text (kv : String × String) : List Char := kv.1.toList ++ '=' :: kv.2.toList

/-- A pair that the text can carry. -/
structure Carried (kv : String × String) : Prop where
  key_ne : kv.1 ≠ ""
  key_eq : '=' ∉ kv.1.toList
  key_amp : '&' ∉ kv.1.toList
  key_nul : Char.ofNat 0 ∉ kv.1.toList
  value_amp : '&' ∉ kv.2.toList
  value_one : Char.ofNat 1 ∉ kv.2.toList
  value_nul : Char.ofNat 0 ∉ kv.2.toList

/-! ## Ordered maps -/

/-- Of two keys one is the first, unless they are the same key. -/
theorem lt_of_not_lt {key k : String} (hne : ¬ key = k) (hlt : ¬ key < k) : k < key := by
  by_contra hlt'
  exact hne (String.le_antisymm (String.not_lt.mp hlt') (String.not_lt.mp hlt))

theorem mem_of_mem_set {key value : String} {kvs : KVS} {kv : String × String}
    (h : kv ∈ KVS.set key value kvs) : kv = (key, value) ∨ kv ∈ kvs := by
  induction kvs with
  | nil => exact .inl (List.mem_singleton.mp h)
  | cons kv' kvs ih =>
    obtain ⟨k, v⟩ := kv'
    unfold KVS.set at h
    split at h
    · rcases List.mem_cons.mp h with rfl | h
      · exact .inl rfl
      · exact .inr (List.mem_cons_of_mem _ h)
    · split at h
      · exact List.mem_cons.mp h
      · rcases List.mem_cons.mp h with rfl | h
        · exact .inr List.mem_cons_self
        · rcases ih h with rfl | h
          · exact .inl rfl
          · exact .inr (List.mem_cons_of_mem _ h)

/-- Storing under a key keeps the order of a map. -/
theorem set_keeps_ordered (key value : String) {kvs : KVS} (h : kvs.Ordered) :
    (KVS.set key value kvs).Ordered := by
  unfold KVS.Ordered at h ⊢
  induction kvs with
  | nil => exact List.pairwise_singleton _ _
  | cons kv kvs ih =>
    obtain ⟨k, v⟩ := kv
    obtain ⟨hk, hrest⟩ := List.pairwise_cons.mp h
    unfold KVS.set
    split
    · rename_i heq
      subst heq
      exact h
    · split
      · rename_i hlt
        refine List.pairwise_cons.mpr ⟨?_, h⟩
        intro k' hk'
        rcases List.mem_cons.mp hk' with rfl | hk'
        · exact hlt
        · exact String.lt_trans hlt (hk k' hk')
      · rename_i hne hlt
        refine List.pairwise_cons.mpr ⟨?_, ih hrest⟩
        intro k' hk'
        obtain ⟨kv, hkv, rfl⟩ := List.mem_map.mp hk'
        rcases mem_of_mem_set hkv with rfl | hkv
        · exact lt_of_not_lt hne hlt
        · exact hk _ (List.mem_map_of_mem hkv)

/-- A key after all the others goes to the end. -/
theorem set_after (key value : String) {kvs : KVS} (h : ∀ kv ∈ kvs, kv.1 < key) :
    KVS.set key value kvs = kvs ++ [(key, value)] := by
  induction kvs with
  | nil => rfl
  | cons kv kvs ih =>
    obtain ⟨k, v⟩ := kv
    have hk : k < key := h (k, v) List.mem_cons_self
    unfold KVS.set
    have hne : ¬ key = k := fun he => String.lt_irrefl k (he ▸ hk)
    have hnlt : ¬ key < k := fun hlt => String.lt_irrefl k (String.lt_trans hk hlt)
    rw [if_neg hne, if_neg hnlt, ih fun kv hkv => h kv (List.mem_cons_of_mem _ hkv)]
    rfl

/-! ## One pair -/

/-- A token that no delimiter cuts is the whole text. -/
theorem strtok_whole {delim : Char} {cs : List Char} (hne : cs ≠ []) (h : delim ∉ cs) :
    strtok delim cs = some (cs, []) := by
  have hd : cs.dropWhile (· = delim) = cs := by
    cases cs with
    | nil => rfl
    | cons c cs =>
      have hc : c ≠ delim := fun he => h (he ▸ List.mem_cons_self)
      simp [hc]
  have hall : ∀ c ∈ cs, decide (c ≠ delim) = true := by
    intro c hc
    have : c ≠ delim := fun he => h (he ▸ hc)
    simpa using this
  unfold strtok
  rw [hd]
  cases cs with
  | nil => exact absurd rfl hne
  | cons c cs =>
    have htake := List.takeWhile_eq_self_iff.mpr hall
    have hdrop := List.dropWhile_eq_nil_iff.mpr hall
    simp only [htake, hdrop, List.tail_nil]

/-- The first delimiter ends the token, and the rest starts after it. -/
theorem strtok_first {delim : Char} {cs rest : List Char} (hne : cs ≠ []) (h : delim ∉ cs) :
    strtok delim (cs ++ delim :: rest) = some (cs, rest) := by
  have hall : ∀ c ∈ cs, decide (c ≠ delim) = true := by
    intro c hc
    have : c ≠ delim := fun he => h (he ▸ hc)
    simpa using this
  cases cs with
  | nil => exact absurd rfl hne
  | cons c cs =>
    have hc : c ≠ delim := fun he => h (he ▸ List.mem_cons_self)
    have hd : ((c :: cs) ++ delim :: rest).dropWhile (· = delim) =
        (c :: cs) ++ delim :: rest := by
      simp [hc]
    unfold strtok
    rw [hd]
    simp only [List.cons_append]
    rw [← List.cons_append, List.takeWhile_append_of_pos hall, List.dropWhile_append_of_pos hall]
    simp

/-- The reader of a pair finds its key and its value, also an empty value and one that
starts with `=`. -/
theorem parse_piece_pair (kvs : KVS) {kv : String × String} (h : Carried kv) :
    parse_piece kvs (pair_text kv) = .ok (KVS.set kv.1 kv.2 kvs) := by
  have hkey : kv.1.toList ≠ [] := fun he => h.key_ne (String.toList_eq_nil_iff.mp he)
  unfold parse_piece pair_text
  rw [strtok_first hkey h.key_eq]
  by_cases hv : kv.2.toList = []
  · have he : kv.2 = "" := String.toList_eq_nil_iff.mp hv
    rw [hv, he]
    simp only [strtok, List.dropWhile_nil, String.ofList_toList]
  · simp only [strtok_whole hv h.value_one, String.ofList_toList]

/-! ## The whole text -/

theorem toList_encode_cons (kv : String × String) (kvs : KVS) :
    (util_encode_options (kv :: kvs)).toList =
      pair_text kv ++ '&' :: (util_encode_options kvs).toList := by
  obtain ⟨k, v⟩ := kv
  simp [util_encode_options, pair_text]

/-- The text of carried pairs has no NUL, so the reader sees all of it. -/
theorem c_str_encode {kvs : KVS} (h : ∀ kv ∈ kvs, Carried kv) :
    c_str (util_encode_options kvs) = util_encode_options kvs := by
  have hall : ∀ c ∈ (util_encode_options kvs).toList, decide (c ≠ Char.ofNat 0) = true := by
    induction kvs with
    | nil => simp [util_encode_options]
    | cons kv kvs ih =>
      have hkv := h kv List.mem_cons_self
      intro c hc
      rw [toList_encode_cons] at hc
      rcases List.mem_append.mp hc with hc | hc
      · unfold pair_text at hc
        rcases List.mem_append.mp hc with hc | hc
        · have hne : c ≠ Char.ofNat 0 := fun he => hkv.key_nul (he ▸ hc)
          simpa using hne
        · rcases List.mem_cons.mp hc with rfl | hc
          · decide
          · have hne : c ≠ Char.ofNat 0 := fun he => hkv.value_nul (he ▸ hc)
            simpa using hne
      · rcases List.mem_cons.mp hc with rfl | hc
        · decide
        · exact ih (fun kv hkv => h kv (List.mem_cons_of_mem _ hkv)) c hc
  unfold c_str
  rw [List.takeWhile_eq_self_iff.mpr hall, String.ofList_toList]

/-- Cut at `&`, the text falls into the texts of its pairs. The empty piece after the
last `&` is skipped. -/
theorem option_pieces_encode {kvs : KVS} (h : ∀ kv ∈ kvs, Carried kv) :
    option_pieces (util_encode_options kvs) = kvs.map pair_text := by
  unfold option_pieces
  induction kvs with
  | nil => rfl
  | cons kv kvs ih =>
    have hkv := h kv List.mem_cons_self
    have hamp : '&' ∉ pair_text kv := by
      unfold pair_text
      intro hmem
      rcases List.mem_append.mp hmem with hmem | hmem
      · exact hkv.key_amp hmem
      · rcases List.mem_cons.mp hmem with hmem | hmem
        · exact absurd hmem (by decide)
        · exact hkv.value_amp hmem
    have hne : pair_text kv ≠ [] := by simp [pair_text]
    rw [toList_encode_cons, List.splitOn_append_cons_self_of_not_mem hamp,
      List.filter_cons_of_pos (by simpa using hne),
      ih fun kv hkv => h kv (List.mem_cons_of_mem _ hkv)]
    rfl

/-- Reading pairs one after the other appends them, as each key comes after all that
were read before it. -/
theorem parse_pieces_append {kvs : KVS} (h : ∀ kv ∈ kvs, Carried kv) (hord : kvs.Ordered)
    {read : KVS} (hread : ∀ kv ∈ read, ∀ kv' ∈ kvs, kv.1 < kv'.1) :
    (kvs.map pair_text).foldlM parse_piece read = .ok (read ++ kvs) := by
  induction kvs generalizing read with
  | nil => simp
  | cons kv kvs ih =>
    obtain ⟨hfirst, hrest⟩ := List.pairwise_cons.mp hord
    rw [List.map_cons, List.foldlM_cons, parse_piece_pair read (h kv List.mem_cons_self),
      ok_bind, set_after kv.1 kv.2 fun kv' hkv' => hread kv' hkv' kv List.mem_cons_self]
    rw [ih (fun kv hkv => h kv (List.mem_cons_of_mem _ hkv)) hrest, List.append_assoc]
    · rfl
    · intro kv' hkv' kv'' hkv''
      rcases List.mem_append.mp hkv' with hkv' | hkv'
      · exact hread kv' hkv' kv'' (List.mem_cons_of_mem _ hkv'')
      · obtain rfl := List.mem_singleton.mp hkv'
        exact hfirst kv''.1 (List.mem_map_of_mem hkv'')

/-- What the reader gives is a map again. -/
theorem parsed_options_are_ordered {options : Option String} {kvs : KVS}
    (h : util_parse_options options = .ok kvs) : kvs.Ordered := by
  have run : ∀ (pieces : List (List Char)) (read : KVS), read.Ordered →
      pieces.foldlM parse_piece read = .ok kvs → kvs.Ordered := by
    intro pieces
    induction pieces with
    | nil =>
      intro read hread h
      cases h
      exact hread
    | cons piece pieces ih =>
      intro read hread h
      obtain ⟨read', hpiece, h⟩ := bind_ok h
      refine ih read' ?_ h
      unfold parse_piece at hpiece
      split at hpiece
      · cases hpiece
      · cases hpiece
        exact set_keeps_ordered _ _ hread
  unfold util_parse_options at h
  split at h
  · cases h
    exact List.Pairwise.nil
  · exact run _ [] List.Pairwise.nil h

/-! ## The law -/

/-- Options that were encoded read back as they were. -/
theorem encoded_options_read_back (m : KVS) (hord : m.Ordered) (h : ∀ kv ∈ m, Carried kv) :
    util_parse_options (some (c_str (util_encode_options m))) = .ok m := by
  unfold util_parse_options
  dsimp only
  rw [c_str_encode h, option_pieces_encode h]
  exact parse_pieces_append h hord (fun kv hkv => absurd hkv List.not_mem_nil)

/-- Three pairs: an empty value, a value that starts with `=`, and a plain one. -/
theorem encoded_options_read_back_example :
    KVS.Ordered [("cid", ""), ("desc", "=x=y"), ("who", "me")] ∧
      (∀ kv ∈ [("cid", ""), ("desc", "=x=y"), ("who", "me")], Carried kv) ∧
      util_parse_options
          (some (c_str (util_encode_options [("cid", ""), ("desc", "=x=y"), ("who", "me")]))) =
        .ok [("cid", ""), ("desc", "=x=y"), ("who", "me")] := by
  have hord : KVS.Ordered [("cid", ""), ("desc", "=x=y"), ("who", "me")] := by
    unfold KVS.Ordered
    decide
  have h : ∀ kv ∈ [("cid", ""), ("desc", "=x=y"), ("who", "me")], Carried kv := by
    intro kv hkv
    simp only [List.mem_cons, List.not_mem_nil, or_false] at hkv
    rcases hkv with rfl | rfl | rfl
    all_goals constructor <;> decide
  exact ⟨hord, h, encoded_options_read_back _ hord h⟩

end zonekey_mcu.options
