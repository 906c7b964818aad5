-- The search for a start code finds the first one, wherever the data lies in memory, and
-- never reads outside the data.
import ZonekeyMcu.AnnexB

namespace zonekey_mcu.annexb

/-- A start code 00 00 01 stands at `p`. -/
def StartAt (data : List UInt8) (p : Nat) : Prop :=
  data[p]? = some 0 ∧ data[p + 1]? = some 0 ∧ data[p + 2]? = some 1

/-- The first start code from `p` on, before `stop`, if there is one. -/
def Finds (data : List UInt8) (p stop : Nat) : Option Nat → Prop
  | some q => p ≤ q ∧ q < stop ∧ StartAt data q ∧ ∀ r, p ≤ r → r < q → ¬ StartAt data r
  | none => ∀ r, p ≤ r → r < stop → ¬ StartAt data r

/-- The next start code that leaves a byte after it, or the end of the data. -/
def Next (data : List UInt8) (p q : Nat) : Prop :=
  Finds data p (data.length - 3) (some q) ∨
    Finds data p (data.length - 3) none ∧ q = data.length

section

variable {data : List UInt8}

theorem finds_of_none {p m stop : Nat} {o : Option Nat} (hpm : p ≤ m)
    (h : Finds data p m none) (h' : Finds data m stop o) : Finds data p stop o := by
  cases o with
  | none =>
    intro r hpr hr
    by_cases hrm : r < m
    · exact h r hpr hrm
    · exact h' r (by omega) hr
  | some q =>
    obtain ⟨hq, hstop, hstart, hbefore⟩ := h'
    refine ⟨by omega, hstop, hstart, ?_⟩
    intro r hpr hr
    by_cases hrm : r < m
    · exact h r hpr hrm
    · exact hbefore r (by omega) hr

/-- What was found before `stop` is found before a later end too. -/
theorem finds_some_mono {p stop stop' q : Nat} (h : Finds data p stop (some q))
    (hle : stop ≤ stop') : Finds data p stop' (some q) :=
  ⟨h.1, Nat.lt_of_lt_of_le h.2.1 hle, h.2.2⟩

theorem finds_nothing {p stop : Nat} (h : stop ≤ p) : Finds data p stop none :=
  fun _ hpr hr => absurd (Nat.lt_of_le_of_lt hpr hr) (by omega)

/-! ## Bytes -/

theorem byte_read (data : List UInt8) (p : Nat) (h : p < data.length) :
    ∃ b, byte data p = .ok b ∧ data[p]? = some b := by
  have hb := List.getElem?_eq_getElem h
  exact ⟨data[p], by rw [byte, hb], hb⟩

theorem startcode_at_read (data : List UInt8) (p : Nat) (h : p + 2 < data.length) :
    ∃ b, startcode_at data p = .ok b ∧ (b = true ↔ StartAt data p) := by
  obtain ⟨b0, h0, e0⟩ := byte_read data p (by omega)
  obtain ⟨b1, h1, e1⟩ := byte_read data (p + 1) (by omega)
  obtain ⟨b2, h2, e2⟩ := byte_read data (p + 2) h
  unfold startcode_at StartAt
  simp only [h0, h1, h2, e0, e1, e2, ok_bind, pure_eq_ok, Option.some.injEq]
  by_cases hb0 : b0 = 0
  · by_cases hb1 : b1 = 0
    · simp [hb0, hb1]
    · simp [hb0, hb1]
  · simp [hb0]

theorem scan_bytes_finds (data : List UInt8) (n p : Nat) (h : n = 0 ∨ p + n + 2 ≤ data.length) :
    ∃ o, scan_bytes data n p = .ok o ∧ Finds data p (p + n) o := by
  induction n generalizing p with
  | zero => exact ⟨none, rfl, finds_nothing (Nat.le_refl _)⟩
  | succ n ih =>
    obtain ⟨b, hb, hiff⟩ := startcode_at_read data p (by omega)
    unfold scan_bytes
    rw [hb, ok_bind]
    cases b with
    | true =>
      refine ⟨some p, rfl, Nat.le_refl _, by omega, hiff.mp rfl, ?_⟩
      intro r hpr hr
      omega
    | false =>
      obtain ⟨o, ho, hfinds⟩ := ih (p + 1) (by omega)
      refine ⟨o, ho, ?_⟩
      have hnot : Finds data p (p + 1) none := by
        intro r hpr hr
        obtain rfl : r = p := by omega
        exact fun hstart => Bool.false_ne_true (hiff.mpr hstart)
      have hstop : p + (n + 1) = p + 1 + n := by omega
      rw [hstop]
      exact finds_of_none (Nat.le_succ p) hnot hfinds

/-! ## Words -/

/-- The test sees a bit that is clear in the word and set after the subtraction. -/
theorem has_zero_of_bit {x : UInt32} {i : Nat} (hi : i = 15 ∨ i = 31)
    (hsub : (4278124287 + x.toNat) % 4294967296 / 2 ^ i % 2 = 1)
    (hclear : x.toNat / 2 ^ i % 2 = 0) : has_zero x = true := by
  unfold has_zero
  rw [bne_iff_ne]
  intro hzero
  have hsub' : (x - 0x01010101).toNat.testBit i = true := by
    rw [UInt32.toNat_sub, Nat.testBit_eq_decide_div_mod_eq]
    exact decide_eq_true hsub
  have hnot : (~~~x).toNat.testBit i = true := by
    have hx := x.toNat_lt
    rw [UInt32.toNat_not, Nat.testBit_eq_decide_div_mod_eq]
    apply decide_eq_true
    rcases hi with rfl | rfl
    all_goals
      simp only [UInt32.size] at *
      omega
  have hmask : (0x80808080 : UInt32).toNat.testBit i = true := by
    rcases hi with rfl | rfl <;> decide
  have hall := congrArg (fun y : UInt32 => y.toNat.testBit i) hzero
  simp only [UInt32.toNat_and, Nat.testBit_and, hsub', hnot, hmask] at hall
  simp at hall

theorem word_toNat (b0 b1 b2 b3 : UInt8) :
    (word b0 b1 b2 b3).toNat =
      b0.toNat + 256 * b1.toNat + 65536 * b2.toNat + 16777216 * b3.toNat := by
  have h0 := b0.toNat_lt
  have h1 := b1.toNat_lt
  have h2 := b2.toNat_lt
  have h3 := b3.toNat_lt
  unfold word
  rw [UInt32.toNat_ofNat_of_lt']
  simp only [UInt32.size]
  omega

/-- A word whose second or fourth byte is zero passes the test. -/
theorem has_zero_word {b0 b1 b2 b3 : UInt8} (h : b1 = 0 ∨ b3 = 0) :
    has_zero (word b0 b1 b2 b3) = true := by
  have h0 := b0.toNat_lt
  have h1 := b1.toNat_lt
  have h2 := b2.toNat_lt
  have h3 := b3.toNat_lt
  have hx := word_toNat b0 b1 b2 b3
  rcases h with rfl | rfl
  · have hzero : (0 : UInt8).toNat = 0 := rfl
    refine has_zero_of_bit (.inl rfl) ?_ ?_ <;> rw [hx, hzero] <;> omega
  · have hzero : (0 : UInt8).toNat = 0 := rfl
    refine has_zero_of_bit (.inr rfl) ?_ ?_ <;> rw [hx, hzero] <;> omega

theorem finds_place {p i : Nat} (hi : i < 4) (hstart : StartAt data (p + i))
    (hbefore : ∀ j < i, ¬ StartAt data (p + j)) : Finds data p (p + 4) (some (p + i)) := by
  refine ⟨Nat.le_add_right p i, by omega, hstart, ?_⟩
  intro r hpr hr
  obtain ⟨j, rfl⟩ := Nat.exists_eq_add_of_le hpr
  exact hbefore j (by omega)

theorem finds_no_place {p : Nat} (h : ∀ j < 4, ¬ StartAt data (p + j)) :
    Finds data p (p + 4) none := by
  intro r hpr hr
  obtain ⟨j, rfl⟩ := Nat.exists_eq_add_of_le hpr
  exact h j (by omega)

/-- The places before, and one more. -/
theorem not_yet {p i : Nat} (h : ∀ j < i, ¬ StartAt data (p + j))
    (hi : ¬ StartAt data (p + i)) : ∀ j < i + 1, ¬ StartAt data (p + j) :=
  Nat.forall_lt_succ_right.mpr ⟨h, hi⟩

/-- One turn over a word finds the first start code at its four places. -/
theorem startcode_in_word_finds (data : List UInt8) (p : Nat) (h : p + 5 < data.length) :
    ∃ o, startcode_in_word data p = .ok o ∧ Finds data p (p + 4) o := by
  obtain ⟨b0, h0, e0⟩ := byte_read data p (by omega)
  obtain ⟨b1, h1, e1⟩ := byte_read data (p + 1) (by omega)
  obtain ⟨b2, h2, e2⟩ := byte_read data (p + 2) (by omega)
  obtain ⟨b3, h3, e3⟩ := byte_read data (p + 3) (by omega)
  obtain ⟨b4, h4, e4⟩ := byte_read data (p + 4) (by omega)
  obtain ⟨b5, h5, e5⟩ := byte_read data (p + 5) (by omega)
  have at0 : StartAt data (p + 0) ↔ b0 = 0 ∧ b1 = 0 ∧ b2 = 1 := by
    simp [StartAt, e0, e1, e2]
  have at1 : StartAt data (p + 1) ↔ b1 = 0 ∧ b2 = 0 ∧ b3 = 1 := by
    simp [StartAt, e1, e2, e3]
  have at2 : StartAt data (p + 2) ↔ b2 = 0 ∧ b3 = 0 ∧ b4 = 1 := by
    simp [StartAt, e2, e3, e4]
  have at3 : StartAt data (p + 3) ↔ b3 = 0 ∧ b4 = 0 ∧ b5 = 1 := by
    simp [StartAt, e3, e4, e5]
  have none0 : ∀ j < 0, ¬ StartAt data (p + j) := fun j hj => absurd hj (Nat.not_lt_zero j)
  unfold startcode_in_word startcode_over_word
  simp only [h0, h1, h2, h3, h4, h5, ok_bind, pure_eq_ok]
  -- a word without a zero byte is passed over, and no start code begins in it
  by_cases hzero : has_zero (word b0 b1 b2 b3) = true
  · rw [if_pos hzero]
    by_cases c0 : b1 = 0 ∧ b0 = 0 ∧ b2 = 1
    · rw [if_pos c0]
      exact ⟨_, rfl, finds_place (by decide) (at0.mpr ⟨c0.2.1, c0.1, c0.2.2⟩) none0⟩
    · rw [if_neg c0]
      have none1 := not_yet none0 fun hs => c0 ⟨(at0.mp hs).2.1, (at0.mp hs).1, (at0.mp hs).2.2⟩
      by_cases c1 : b1 = 0 ∧ b2 = 0 ∧ b3 = 1
      · rw [if_pos c1]
        exact ⟨_, rfl, finds_place (by decide) (at1.mpr c1) none1⟩
      · rw [if_neg c1]
        have none2 := not_yet none1 fun hs => c1 (at1.mp hs)
        by_cases hb3 : b3 = 0
        · rw [if_pos hb3]
          by_cases c2 : b2 = 0 ∧ b4 = 1
          · rw [if_pos c2]
            exact ⟨_, rfl, finds_place (by decide) (at2.mpr ⟨c2.1, hb3, c2.2⟩) none2⟩
          · rw [if_neg c2]
            have none3 := not_yet none2 fun hs => c2 ⟨(at2.mp hs).1, (at2.mp hs).2.2⟩
            by_cases hb4 : b4 = 0
            · rw [if_pos hb4]
              by_cases hb5 : b5 = 1
              · rw [if_pos hb5]
                exact ⟨_, rfl, finds_place (by decide) (at3.mpr ⟨hb3, hb4, hb5⟩) none3⟩
              · rw [if_neg hb5]
                exact ⟨_, rfl, finds_no_place (not_yet none3 fun hs => hb5 (at3.mp hs).2.2)⟩
            · rw [if_neg hb4]
              exact ⟨_, rfl, finds_no_place (not_yet none3 fun hs => hb4 (at3.mp hs).2.1)⟩
        · rw [if_neg hb3]
          have none3 := not_yet none2 fun hs => hb3 (at2.mp hs).2.1
          exact ⟨_, rfl, finds_no_place (not_yet none3 fun hs => hb3 (at3.mp hs).1)⟩
  · rw [if_neg hzero]
    have hb1 : ¬ b1 = 0 := fun hb => hzero (has_zero_word (.inl hb))
    have hb3 : ¬ b3 = 0 := fun hb => hzero (has_zero_word (.inr hb))
    have none1 := not_yet none0 fun hs => hb1 (at0.mp hs).2.1
    have none2 := not_yet none1 fun hs => hb1 (at1.mp hs).1
    have none3 := not_yet none2 fun hs => hb3 (at2.mp hs).2.1
    exact ⟨_, rfl, finds_no_place (not_yet none3 fun hs => hb3 (at3.mp hs).1)⟩

theorem scan_words_finds (data : List UInt8) (n p : Nat) (h : n = 0 ∨ p + 4 * n + 1 < data.length) :
    ∃ o, scan_words data n p = .ok o ∧ Finds data p (p + 4 * n) o := by
  induction n generalizing p with
  | zero => exact ⟨none, rfl, finds_nothing (Nat.le_refl _)⟩
  | succ n ih =>
    obtain ⟨o, ho, hfinds⟩ := startcode_in_word_finds data p (by omega)
    unfold scan_words
    rw [ho, ok_bind]
    cases o with
    | some q => exact ⟨some q, rfl, finds_some_mono hfinds (by omega)⟩
    | none =>
      obtain ⟨o, ho, hrest⟩ := ih (p + 4) (by omega)
      have hstop : p + 4 * (n + 1) = p + 4 + 4 * n := by omega
      rw [hstop]
      exact ⟨o, ho, finds_of_none (by omega) hfinds hrest⟩

/-! ## The search -/

theorem next_of_none {p m q : Nat} (hpm : p ≤ m) (h : Finds data p m none) (h' : Next data m q) :
    Next data p q := by
  rcases h' with hsome | ⟨hnone, hend⟩
  · exact .inl (finds_of_none hpm h hsome)
  · exact .inr ⟨finds_of_none hpm h hnone, hend⟩

/-- A scan up to `m`, and the rest of the search behind it. -/
theorem search_stage {p m : Nat} {scan : Except Fault (Option Nat)} {rest : Except Fault Nat}
    (hscan : ∃ o, scan = .ok o ∧ Finds data p m o) (hpm : p ≤ m)
    (hm : m ≤ data.length - 3 ∨ m ≤ p) (hrest : ∃ q, rest = .ok q ∧ Next data m q) :
    ∃ q, (scan >>= fun o => match o with | some q => pure q | none => rest) = .ok q ∧
      Next data p q := by
  obtain ⟨o, ho, hfinds⟩ := hscan
  rw [ho, ok_bind]
  cases o with
  | some q =>
    have hq := hfinds.1
    have hlt := hfinds.2.1
    exact ⟨q, rfl, .inl (finds_some_mono hfinds (by omega))⟩
  | none =>
    obtain ⟨q, hok, hnext⟩ := hrest
    exact ⟨q, hok, next_of_none hpm hfinds hnext⟩

/-- The search finds the next start code, at every address of the data. -/
theorem find_startcode_next (base : Nat) {p : Nat} (hp : p ≤ data.length) :
    ∃ q, find_startcode base data p = .ok q ∧ Next data p q := by
  unfold find_startcode
  dsimp only
  generalize hn₁ : (min ((p + 4 : Int) - ((base + p) % 4 : Nat)) (data.length - 3) - p).toNat = n₁
  generalize hn₂ : (((data.length : Int) - 6 - (p + n₁ : Nat) + 3) / 4).toNat = n₂
  generalize hn₃ : ((data.length : Int) - 3 - (p + n₁ + 4 * n₂ : Nat)).toNat = n₃
  refine search_stage (scan_bytes_finds data n₁ p (by omega)) (by omega) (by omega) ?_
  refine search_stage (scan_words_finds data n₂ (p + n₁) (by omega)) (by omega) (by omega) ?_
  refine search_stage (scan_bytes_finds data n₃ (p + n₁ + 4 * n₂) (by omega)) (by omega)
    (by omega) ?_
  exact ⟨data.length, rfl, .inr ⟨finds_nothing (by omega), rfl⟩⟩

/-- There is one next start code. -/
theorem next_unique {p q q' : Nat} (h : Next data p q) (h' : Next data p q') : q = q' := by
  rcases h with ⟨hq, hlt, hs, hb⟩ | ⟨hnone, rfl⟩
  · rcases h' with ⟨hq', hlt', hs', hb'⟩ | ⟨hnone', rfl⟩
    · rcases Nat.lt_trichotomy q q' with hlt | heq | hgt
      · exact absurd hs (hb' q hq hlt)
      · exact heq
      · exact absurd hs' (hb q' hq' hgt)
    · exact absurd hs (hnone' q hq hlt)
  · rcases h' with ⟨hq', hlt', hs', -⟩ | ⟨-, rfl⟩
    · exact absurd hs' (hnone q' hq' hlt')
    · rfl

/-! ## Data behind other bytes -/

theorem start_append (pre x : List UInt8) (i : Nat) :
    StartAt (pre ++ x) (pre.length + i) ↔ StartAt x i := by
  have hget : ∀ j, (pre ++ x)[pre.length + j]? = x[j]? := by
    intro j
    rw [List.getElem?_append_right (by omega)]
    congr 1
    omega
  unfold StartAt
  rw [Nat.add_assoc, Nat.add_assoc, hget, hget, hget]

theorem next_append (pre : List UInt8) {p q : Nat} (h : Next data p q) :
    Next (pre ++ data) (pre.length + p) (pre.length + q) := by
  unfold Next
  rw [List.length_append]
  rcases h with ⟨hq, hlt, hstart, hbefore⟩ | ⟨hnone, rfl⟩
  · refine .inl ⟨by omega, by omega, (start_append pre data q).mpr hstart, ?_⟩
    intro r hpr hr
    obtain ⟨i, rfl⟩ : ∃ i, r = pre.length + i := Nat.exists_eq_add_of_le (by omega)
    rw [start_append]
    exact hbefore i (by omega) (by omega)
  · refine .inr ⟨?_, rfl⟩
    intro r hpr hr
    obtain ⟨i, rfl⟩ : ∃ i, r = pre.length + i := Nat.exists_eq_add_of_le (by omega)
    rw [start_append]
    exact hnone i (by omega) (by omega)

/-! ## The naive search -/

/-- The first `00 00 01` of a range that starts more than three bytes before its end, looked
for one place after another. -/
def naive_find_startcode : List UInt8 → Nat
  | b0 :: b1 :: b2 :: b3 :: range =>
    if b0 = 0 ∧ b1 = 0 ∧ b2 = 1 then 0
    else naive_find_startcode (b1 :: b2 :: b3 :: range) + 1
  | range => range.length

theorem next_of_no_start {b : UInt8} {q : Nat} (hnot : ¬ StartAt (b :: data) 0)
    (h : Next data 0 q) : Next (b :: data) 0 (q + 1) := by
  have hfirst : Finds (b :: data) 0 1 none := by
    intro r _ hr
    obtain rfl : r = 0 := by omega
    exact hnot
  rw [Nat.add_comm q 1]
  exact next_of_none (Nat.zero_le 1) hfirst (next_append [b] h)

theorem naive_find_startcode_next (range : List UInt8) :
    Next range 0 (naive_find_startcode range) := by
  fun_induction naive_find_startcode range with
  | case1 b0 b1 b2 b3 range hstart =>
    refine .inl ⟨Nat.le_refl 0, by simp, ?_, fun r _ hr => absurd hr (Nat.not_lt_zero r)⟩
    simpa [StartAt] using hstart
  | case2 b0 b1 b2 b3 range hstart ih =>
    refine next_of_no_start ?_ ih
    simpa [StartAt] using hstart
  | case3 range hshort =>
    have hlen : range.length ≤ 3 := by
      match range with
      | [] | [_] | [_, _] | [_, _, _] => simp
      | b0 :: b1 :: b2 :: b3 :: range => exact absurd rfl (hshort b0 b1 b2 b3 range)
    exact .inr ⟨finds_nothing (by omega), rfl⟩

theorem find_startcode_naive (base : Nat) (before range : List UInt8) :
    find_startcode base (before ++ range) before.length =
      .ok (before.length + naive_find_startcode range) := by
  have hnaive := next_append before (naive_find_startcode_next range)
  rw [Nat.add_zero] at hnaive
  have hle : before.length ≤ (before ++ range).length := by simp
  obtain ⟨q, hq, hnext⟩ := find_startcode_next base hle
  rw [hq, next_unique hnext hnaive]

/-- Both copies of the search find what the naive one finds, at every address. They read no byte
outside the range: they do it where the memory is the range alone, and with any bytes before
it. -/
theorem the_search_finds_what_the_naive_one_finds (base : Nat) (range : List UInt8) :
    avc_find_startcode base range 0 = .ok (naive_find_startcode range) ∧
      ff_avc_find_startcode_internal base range 0 = .ok (naive_find_startcode range) ∧
      ∀ before : List UInt8,
        avc_find_startcode base (before ++ range) before.length =
            .ok (before.length + naive_find_startcode range) ∧
          ff_avc_find_startcode_internal base (before ++ range) before.length =
            .ok (before.length + naive_find_startcode range) := by
  have halone := find_startcode_naive base [] range
  rw [List.nil_append, List.length_nil, Nat.zero_add] at halone
  refine ⟨halone, halone, fun before => ?_⟩
  have hbehind := find_startcode_naive base before range
  exact ⟨hbehind, hbehind⟩

end

end zonekey_mcu.annexb
