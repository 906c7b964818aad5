-- The laws of the z-order array. UP, DOWN and TOP only move one channel through
-- the list. BOTTOM shifts the array the wrong way: it copies the first id over
-- all ids before the moved one.
import ZonekeyMcu.Lib.Runs
import ZonekeyMcu.Lib.ListMoves
import ZonekeyMcu.VideoMixer
import Mathlib.Data.Int.Interval
import Mathlib.Data.List.GetD

open runs list_moves

namespace zonekey_mcu.video_mixer

/-! ## The array as a list of ids -/

/-- The array that lists the ids `l`, and then only -1. -/
def slots (l : List Int) : List Int := l ++ List.replicate (MAX_CHANNELS + 1 - l.length) (-1)

/-- A channel that exists and is in use. -/
def CTX.Employed (m : CTX) (i : Int) : Prop :=
  0 ≤ i ∧ i < MAX_CHANNELS ∧ (m.channels_ i.toNat).idle_ = false

/-- The array lists exactly the channels in use, each once. -/
structure Orders (m : CTX) (l : List Int) : Prop where
  array : m.zorder_ = slots l
  nodup : l.Nodup
  employed : ∀ i, i ∈ l ↔ m.Employed i

def Ordered (m : CTX) : Prop := ∃ l, Orders m l

/-- The array lists some channels, each once, whether they are in use or not. -/
structure Lists (m : CTX) (l : List Int) : Prop where
  array : m.zorder_ = slots l
  nodup : l.Nodup
  range : ∀ i ∈ l, 0 ≤ i ∧ i < (MAX_CHANNELS : Int)

/-- The ids in the array. -/
def CTX.order (m : CTX) : List Int := m.zorder_.filter (· ≠ -1)

theorem length_le_of_ids {l : List Int} (h : l.Nodup)
    (hr : ∀ i ∈ l, 0 ≤ i ∧ i < (MAX_CHANNELS : Int)) : l.length ≤ MAX_CHANNELS := by
  have hsub : l.toFinset ⊆ Finset.Ico (0 : Int) MAX_CHANNELS := by
    intro i hi
    have := hr i (List.mem_toFinset.mp hi)
    simpa using this
  have := Finset.card_le_card hsub
  rwa [List.toFinset_card_of_nodup h, Int.card_Ico, Int.sub_zero, Int.toNat_natCast] at this

section

variable {m : CTX} {l : List Int}

theorem Orders.range (h : Orders m l) {i : Int} (hi : i ∈ l) : 0 ≤ i ∧ i < (MAX_CHANNELS : Int) :=
  ⟨((h.employed i).mp hi).1, ((h.employed i).mp hi).2.1⟩

theorem Orders.lists (h : Orders m l) : Lists m l := ⟨h.array, h.nodup, fun _ => h.range⟩

theorem Lists.length_le (h : Lists m l) : l.length ≤ MAX_CHANNELS :=
  length_le_of_ids h.nodup h.range

theorem Lists.no_end (h : Lists m l) : (-1 : Int) ∉ l := by
  intro hm
  have := (h.range _ hm).1
  omega

theorem Orders.length_le (h : Orders m l) : l.length ≤ MAX_CHANNELS := h.lists.length_le

theorem Orders.no_end (h : Orders m l) : (-1 : Int) ∉ l := h.lists.no_end

end

theorem slots_eq {l : List Int} (h : l.length ≤ MAX_CHANNELS) :
    slots l = l ++ -1 :: List.replicate (MAX_CHANNELS - l.length) (-1) := by
  unfold slots
  rw [Nat.succ_sub h, List.replicate_succ]

theorem slots_length {l : List Int} (h : l.length ≤ MAX_CHANNELS) :
    (slots l).length = MAX_CHANNELS + 1 := by
  rw [slots_eq h]
  simp
  omega

/-- A write to the first free slot adds one id to the list. -/
theorem slots_set {l : List Int} (i : Int) (h : l.length + 1 ≤ MAX_CHANNELS) :
    (slots l).set l.length i = slots (l ++ [i]) := by
  have hsub : MAX_CHANNELS - l.length = MAX_CHANNELS - (l ++ [i]).length + 1 := by
    rw [List.length_append, List.length_singleton]
    omega
  rw [slots_eq (by omega), slots_eq (by simpa using h), List.set_append_right _ _ (by simp), hsub,
    Nat.sub_self, List.set_cons_zero, List.replicate_succ, List.append_assoc]
  rfl

theorem slots_take {l : List Int} (h : l.length ≤ MAX_CHANNELS) :
    (slots l).take MAX_CHANNELS = l ++ List.replicate (MAX_CHANNELS - l.length) (-1) := by
  unfold slots
  rw [List.take_append, List.take_of_length_le h, List.take_replicate]
  congr 2
  omega

theorem slots_drop {l : List Int} (h : l.length ≤ MAX_CHANNELS) :
    (slots l).drop MAX_CHANNELS = [-1] := by
  unfold slots
  rw [List.drop_append, List.drop_of_length_le h, List.drop_replicate,
    show MAX_CHANNELS + 1 - l.length - (MAX_CHANNELS - l.length) = 1 by omega]
  rfl

theorem mem_slots {l : List Int} {i : Int} (hi : 0 ≤ i) : i ∈ slots l ↔ i ∈ l := by
  unfold slots
  simp only [List.mem_append, List.mem_replicate]
  constructor
  · rintro (h | h)
    · exact h
    · omega
  · exact Or.inl

theorem idxOf_slots {l : List Int} {i : Int} (h : i ∈ l) : (slots l).idxOf i = l.idxOf i :=
  List.idxOf_append_of_mem h

/-! ## The end of the array -/

section

variable {m : CTX}

/-- The last slot of the array holds the -1 at which every loop over it stops. -/
def CTX.has_end (m : CTX) : Prop := m.zorder_[MAX_CHANNELS]? = some (-1)

theorem has_end_drop (h : m.has_end) {i : Nat} (hi : i ≤ MAX_CHANNELS) :
    (-1 : Int) ∈ m.zorder_.drop i := by
  unfold CTX.has_end at h
  apply List.mem_of_getElem? (i := MAX_CHANNELS - i)
  rwa [List.getElem?_drop, Nat.add_sub_cancel' hi]

theorem has_end_mem (h : m.has_end) : (-1 : Int) ∈ m.zorder_ := List.mem_of_getElem? h

theorem has_end_tail (h : m.has_end) : (-1 : Int) ∈ m.zorder_.tail := by
  rw [← List.drop_one]
  exact has_end_drop h (by decide)

/-- An array that lists channels, each once, has room for its end. -/
theorem Ordered.has_end (h : Ordered m) : m.has_end := by
  obtain ⟨l, h⟩ := h
  have hlen := h.length_le
  unfold CTX.has_end
  rw [h.array, slots_eq hlen, List.getElem?_append_right hlen, ← List.replicate_succ]
  exact List.getElem?_replicate_of_lt (by omega)

end

/-! ## The loops over the array -/

theorem scan_append {stop : Int → Bool} {xs : List Int} {y : Int} (rest : List Int) (i : Nat)
    (hxs : ∀ x ∈ xs, stop x = false) (hy : stop y = true) :
    scan stop (xs ++ y :: rest) i = .ok (i + xs.length) := by
  induction xs generalizing i with
  | nil => simp [scan, hy]
  | cons x xs ih =>
    simp only [List.cons_append, scan, hxs x (by simp), Bool.false_eq_true, if_false]
    rw [ih (i + 1) (fun z hz => hxs z (by simp [hz]))]
    simp only [List.length_cons]
    congr 1
    omega

theorem rezorder_up_append (id : Int) (rest l : List Int) (a : Int) (hl : (-1 : Int) ∉ l) :
    rezorder_up id (a :: l ++ -1 :: rest) = .ok (up id (a :: l) ++ -1 :: rest) := by
  induction l generalizing a with
  | nil => simp [rezorder_up, up]
  | cons b l ih =>
    have hb : b ≠ -1 := fun hb => hl (by simp [hb])
    have ih := ih b (fun hm => hl (by simp [hm]))
    simp only [List.cons_append] at ih ⊢
    by_cases ha : a = id
    · simp [rezorder_up, up, hb, ha]
    · simp [rezorder_up, up, hb, ha, ih, Except.map]

theorem rezorder_top_append (id : Int) (rest l : List Int) (a : Int) (hl : (-1 : Int) ∉ l) :
    rezorder_top id (a :: l ++ -1 :: rest) = .ok (toTop id (a :: l) ++ -1 :: rest) := by
  induction l generalizing a with
  | nil => by_cases ha : id = a <;> simp [rezorder_top, toTop, ha]
  | cons b l ih =>
    have hb : b ≠ -1 := fun hb => hl (by simp [hb])
    have hl' : (-1 : Int) ∉ l := fun hm => hl (by simp [hm])
    simp only [List.cons_append] at ih ⊢
    by_cases ha : a = id
    · -- The window carries `id` along, so the rest starts with `id` again.
      subst ha
      simp [rezorder_top, toTop, hb, ih a hl', Except.map]
    · have ha' : ¬ id = a := fun h => ha h.symm
      simp only [rezorder_top, if_neg hb, if_neg ha, ih b hl', Except.map]
      by_cases hm : id ∈ b :: l
      · have herase : (a :: b :: l).erase id = a :: (b :: l).erase id :=
          List.erase_cons_tail (by simpa using ha)
        simp only [toTop, hm, List.mem_cons_of_mem a hm, if_true, herase]
        rfl
      · have hm' : id ∉ a :: b :: l := by
          rw [List.mem_cons, not_or]
          exact ⟨ha', hm⟩
        simp [toTop, hm, hm']

theorem swap_append (xs ys : List Int) (a b : Int) :
    swap (xs ++ a :: b :: ys) xs.length = xs ++ b :: a :: ys := by
  unfold swap
  rw [List.getD_append_right _ _ _ _ (by omega), List.getD_append_right _ _ _ _ (by omega)]
  simp [List.set_append_right]

/-- The array after `i` turns of the shift: the first id in all slots up to `i`. -/
theorem shift_back_cons (x : Int) (z : List Int) (i : Nat) (hi : i ≤ z.length) :
    shift_back (x :: z) i = List.replicate (i + 1) x ++ z.drop i := by
  induction i with
  | zero => simp [shift_back]
  | succ i ih =>
    have ih := ih (by omega)
    unfold shift_back at ih ⊢
    rw [List.range_succ, List.foldl_append, ih]
    have hdrop : z.drop i = z[i] :: z.drop (i + 1) := List.drop_eq_getElem_cons (by omega)
    have hsnoc : List.replicate (i + 1 + 1) x = List.replicate (i + 1) x ++ [x] :=
      List.replicate_succ'
    have hlast : (List.replicate (i + 1) x).getD i (-1) = x := by simp
    simp only [List.foldl_cons, List.foldl_nil, hdrop, hsnoc]
    rw [List.set_append_right _ _ (by simp), List.getD_append _ _ _ _ (by simp), hlast,
      List.length_replicate, Nat.sub_self, List.set_cons_zero, List.append_assoc]
    rfl

@[simp] theorem close_gap_end (rest : List Int) : close_gap (-1 :: rest) = .ok (-1 :: rest) := by
  cases rest <;> simp [close_gap]

theorem close_gap_append (rest ys : List Int) (a : Int) (ha : a ≠ -1) (hys : (-1 : Int) ∉ ys) :
    close_gap (a :: ys ++ -1 :: rest) = .ok (ys ++ -1 :: -1 :: rest) := by
  induction ys generalizing a with
  | nil => simp [close_gap, ha, Except.map]
  | cons y ys ih =>
    have hy : y ≠ -1 := fun hy => hys (by simp [hy])
    have ih := ih y hy (fun hm => hys (by simp [hm]))
    simp only [List.cons_append] at ih ⊢
    simp [close_gap, ha, ih, Except.map]

/-! ## What each call does to the channels -/

/-- What a call of `get_channel` that returns did. -/
theorem get_channel_cases {m m' : CTX} {c : Int} (h : m.get_channel = .ok (c, m')) :
    (c = -1 ∧ m' = m ∧ ∀ i < MAX_CHANNELS, (m.channels_ i).idle_ = false) ∨
    ∃ i z, c = Int.ofNat i ∧ i < MAX_CHANNELS ∧ (m.channels_ i).idle_ = true ∧
      (∀ j < i, (m.channels_ j).idle_ = false) ∧ scan (· == -1) m.zorder_ 0 = .ok z ∧
      m' = { m.set_channel i (m.channels_ i).employ with zorder_ := m.zorder_.set z i } := by
  unfold CTX.get_channel at h
  split at h
  · rename_i hnone
    cases h
    rw [List.find?_range_eq_none] at hnone
    exact Or.inl ⟨rfl, rfl, by simpa using hnone⟩
  · rename_i i hsome
    rw [List.find?_range_eq_some] at hsome
    obtain ⟨hidle, hi, hbefore⟩ := hsome
    simp only [set_channel_zorder] at h
    split at h
    · cases h
    · rename_i z hz
      cases h
      exact Or.inr ⟨i, z, rfl, by simpa using hi, hidle, by simpa using hbefore, hz, rfl⟩

theorem employed_employ {m : CTX} {i : Nat} (hi : i < MAX_CHANNELS) (j : Int) :
    (m.set_channel i (m.channels_ i).employ).Employed j ↔ m.Employed j ∨ j = i := by
  unfold CTX.Employed
  by_cases hj : j.toNat = i
  · rw [hj, set_channel_self]
    simp only [InputSource.employ, and_true]
    constructor
    · rintro ⟨h0, _⟩
      exact Or.inr (by omega)
    · rintro (⟨h0, h1, _⟩ | rfl)
      · exact ⟨h0, h1⟩
      · exact ⟨by omega, by omega⟩
  · rw [set_channel_ne _ _ hj]
    constructor
    · exact Or.inl
    · rintro (h | rfl)
      · exact h
      · exact absurd (Int.toNat_natCast i) hj

theorem employed_disemploy {m : CTX} {cid : Int} (hc : 0 ≤ cid) (j : Int) :
    (m.set_channel cid.toNat (m.channels_ cid.toNat).disemploy).Employed j ↔
      m.Employed j ∧ j ≠ cid := by
  unfold CTX.Employed
  by_cases hj : j.toNat = cid.toNat
  · rw [hj, set_channel_self]
    simp only [InputSource.disemploy, Bool.true_eq_false, and_false, false_iff, not_and]
    rintro ⟨h0, _⟩ hne
    omega
  · rw [set_channel_ne _ _ hj]
    exact ⟨fun h => ⟨h, fun hjc => hj (by rw [hjc])⟩, fun h => h.1⟩

/-! ## What each call does to the order -/

section

variable {m : CTX} {l : List Int}

/-- Either all channels are in use, or the new channel comes last in the order. -/
theorem get_channel_orders (h : Orders m l) :
    (m.get_channel = .ok (-1, m) ∧ ∀ i < MAX_CHANNELS, (m.channels_ i).idle_ = false) ∨
    ∃ (i : Nat) (m' : CTX), m.get_channel = .ok (i, m') ∧ i < MAX_CHANNELS ∧
      (m.channels_ i).idle_ = true ∧ Orders m' (l ++ [(i : Int)]) := by
  have hend : scan (· == -1) m.zorder_ 0 = .ok l.length := by
    rw [h.array, slots_eq h.length_le, scan_append]
    · simp
    · intro x hx
      have := (h.range hx).1
      simp only [beq_eq_false_iff_ne]
      omega
    · rfl
  cases hfind : (List.range MAX_CHANNELS).find? fun i => (m.channels_ i).idle_ with
  | none =>
    refine Or.inl ⟨by simp [CTX.get_channel, hfind], ?_⟩
    rw [List.find?_range_eq_none] at hfind
    simpa using hfind
  | some i =>
    have hsome := hfind
    rw [List.find?_range_eq_some] at hsome
    obtain ⟨hidle, hi, _⟩ := hsome
    have hi : i < MAX_CHANNELS := by simpa using hi
    have hnot : (i : Int) ∉ l := fun hm => by
      have := ((h.employed i).mp hm).2.2
      simp [hidle] at this
    have hnodup : (l ++ [(i : Int)]).Nodup := nodup_append_one h.nodup hnot
    have hlen : l.length + 1 ≤ MAX_CHANNELS := by
      have := length_le_of_ids hnodup (by
        intro j hj
        rcases List.mem_append.mp hj with hj | hj
        · exact h.range hj
        · simp only [List.mem_singleton] at hj
          omega)
      simpa using this
    refine Or.inr ⟨i, { m.set_channel i (m.channels_ i).employ with
      zorder_ := m.zorder_.set l.length i }, by simp [CTX.get_channel, hfind, hend], hi, hidle,
      ?_, hnodup, ?_⟩
    · simp only [h.array, slots_set _ hlen]
    · intro j
      rw [List.mem_append, List.mem_singleton, h.employed j]
      exact (employed_employ hi j).symm

/-- The array after `free_channel`: the loop closes the gap that `cid` leaves. -/
theorem slots_close_gap {l : List Int} {cid : Int} (hl : l.length ≤ MAX_CHANNELS)
    (hend : (-1 : Int) ∉ l) (hc : 0 ≤ cid) {i : Nat}
    (hi : ((slots l).take MAX_CHANNELS).findIdx (· == cid) = i) :
    ∃ tail, close_gap ((slots l).drop i) = .ok tail ∧
      (slots l).take i ++ tail = slots (l.erase cid) := by
  change ((slots l).take MAX_CHANNELS).idxOf cid = i at hi
  by_cases hm : cid ∈ l
  · obtain ⟨xs, ys, hsplit, hxs, hidx⟩ := split_first hm
    rw [slots_take hl, List.idxOf_append_of_mem hm, ← hidx] at hi
    subst hi
    have hshape : slots l =
        xs ++ (cid :: ys ++ -1 :: List.replicate (MAX_CHANNELS - l.length) (-1)) := by
      rw [slots_eq hl, hsplit]
      simp
    have hys : (-1 : Int) ∉ ys := fun h => hend (by rw [hsplit]; simp [h])
    refine ⟨ys ++ -1 :: -1 :: List.replicate (MAX_CHANNELS - l.length) (-1), ?_, ?_⟩
    · rw [hshape, List.drop_left]
      exact close_gap_append _ ys cid (by omega) hys
    · have hlen : (xs ++ ys).length + 1 = l.length := by
        rw [hsplit]
        simp
        omega
      have herase : l.erase cid = xs ++ ys := by rw [hsplit, erase_split _ hxs]
      rw [hshape, List.take_left, herase, slots_eq (by omega),
        show MAX_CHANNELS - (xs ++ ys).length = MAX_CHANNELS - l.length + 1 by omega,
        List.replicate_succ, List.append_assoc]
  · have hfar : cid ∉ (slots l).take MAX_CHANNELS := fun h =>
      hm ((mem_slots hc).mp (List.mem_of_mem_take h))
    have hmax : i = MAX_CHANNELS := by
      rw [← hi, List.idxOf_of_notMem hfar, List.length_take, slots_length hl]
      rfl
    subst hmax
    refine ⟨[-1], ?_, ?_⟩
    · rw [slots_drop hl]
      rfl
    · rw [List.erase_of_not_mem hm, ← slots_drop hl, List.take_append_drop]

theorem free_channel_orders (h : Orders m l) (cid : Int) :
    ∃ rc m', m.free_channel cid = .ok (rc, m') ∧ Orders m' (l.erase cid) := by
  by_cases hc : 0 ≤ cid ∧ cid < MAX_CHANNELS
  · obtain ⟨tail, htail, harray⟩ := slots_close_gap h.length_le h.no_end hc.1 rfl
    refine ⟨0, { m.set_channel cid.toNat (m.channels_ cid.toNat).disemploy with
      zorder_ := slots (l.erase cid) }, ?_, rfl, h.nodup.erase cid, ?_⟩
    · simp only [CTX.free_channel, hc, and_self, if_true, set_channel_zorder, h.array, htail,
        harray]
    · intro j
      rw [h.nodup.mem_erase_iff, h.employed j, and_comm]
      exact (employed_disemploy hc.1 j).symm
  · refine ⟨-1, m, by simp [CTX.free_channel, hc], ?_⟩
    rw [List.erase_of_not_mem (fun hm => hc (h.range hm))]
    exact h

/-- A new description never changes the order. -/
theorem set_channel_desc_orders (h : Orders m l) (desc : ChannelDesc) :
    ∃ rc m', m.set_channel_desc desc = .ok (rc, m') ∧ Orders m' l := by
  unfold CTX.set_channel_desc
  split
  · exact ⟨-1, m, rfl, h⟩
  · split
    · exact ⟨-1, m, rfl, h⟩
    · rename_i hr hidle
      simp only [InputSource.set_param, hidle, Bool.false_eq_true, if_false]
      refine ⟨0, _, rfl, h.array, h.nodup, fun i => ?_⟩
      rw [h.employed i]
      unfold CTX.Employed
      by_cases hi : i.toNat = desc.id.toNat
      · rw [hi, set_channel_self]
        simp [hidle]
      · rw [set_channel_ne _ _ hi]

end

/-! ## The four moves -/

/-- The order after a move of channel `id`. -/
def moved (id : Int) : ZOrderOper → List Int → List Int
  | .UP => up id
  | .DOWN => down id
  | .TOP => toTop id
  | .BOTTOM => toBottom id

theorem moved_moves (id : Int) (oper : ZOrderOper) (l : List Int) :
    Moves id l (moved id oper l) := by
  cases oper
  · exact up_moves id l
  · exact down_moves id l
  · exact toTop_moves id l
  · exact toBottom_moves id l

/-- A move keeps the number of ids. -/
theorem moved_length (id : Int) (oper : ZOrderOper) (l : List Int) :
    (moved id oper l).length = l.length := (moved_moves id oper l).1.length_eq

theorem moved_nil (id : Int) (oper : ZOrderOper) : moved id oper [] = [] := by
  cases oper <;> rfl

/-- The list of ids before the end of the array, after a move of channel `id`. -/
theorem slots_moved {l : List Int} (id : Int) (oper : ZOrderOper) (hl : l.length ≤ MAX_CHANNELS) :
    slots (moved id oper l) =
      moved id oper l ++ -1 :: List.replicate (MAX_CHANNELS - l.length) (-1) := by
  rw [slots_eq (by rw [moved_length]; exact hl), moved_length]

/-- Where the search of DOWN and BOTTOM ends. -/
theorem scan_id {l : List Int} {id : Int} (hl : l.length ≤ MAX_CHANNELS) (hend : (-1 : Int) ∉ l) :
    scan (fun a => a == -1 || a == id) (slots l) 0 =
      .ok (if id ∈ l then l.idxOf id else l.length) := by
  have hbefore : ∀ xs : List Int, (∀ x ∈ xs, x ∈ l) → id ∉ xs →
      ∀ x ∈ xs, (x == -1 || x == id) = false := by
    intro xs hsub hid x hx
    have h1 : x ≠ -1 := fun h => hend (h ▸ hsub x hx)
    have h2 : x ≠ id := fun h => hid (h ▸ hx)
    simp [h1, h2]
  by_cases hm : id ∈ l
  · obtain ⟨xs, ys, hsplit, hxs, hidx⟩ := split_first hm
    rw [if_pos hm, ← hidx, slots_eq hl]
    conv_lhs => rw [hsplit]
    rw [List.append_assoc, List.cons_append, scan_append, Nat.zero_add]
    · exact hbefore xs (fun x hx => by rw [hsplit]; simp [hx]) hxs
    · simp
  · rw [if_neg hm, slots_eq hl, scan_append, Nat.zero_add]
    · exact hbefore l (fun _ hx => hx) hm
    · rfl

/-- The slot where the search ends holds -1 exactly when the array lacks `id`. -/
theorem slot_id {l : List Int} {id : Int} (hl : l.length ≤ MAX_CHANNELS) (hid : 0 ≤ id) :
    (slots l).getD (if id ∈ l then l.idxOf id else l.length) (-1) ≠ -1 ↔ id ∈ l := by
  by_cases hm : id ∈ l
  · obtain ⟨xs, ys, hsplit, hxs, hidx⟩ := split_first hm
    rw [if_pos hm, ← hidx, slots_eq hl]
    conv_lhs => rw [hsplit]
    rw [List.append_assoc, List.cons_append, List.getD_append_right _ _ _ _ (Nat.le_refl _),
      Nat.sub_self, List.getD_cons_zero]
    simp only [hm, iff_true]
    omega
  · rw [if_neg hm, slots_eq hl, List.getD_append_right _ _ _ _ (Nat.le_refl _), Nat.sub_self,
      List.getD_cons_zero]
    simp [hm]

theorem rezorder_up_slots {l : List Int} (id : Int) (hl : l.length ≤ MAX_CHANNELS)
    (hend : (-1 : Int) ∉ l) : rezorder_up id (slots l) = .ok (slots (moved id .UP l)) := by
  rw [slots_moved id .UP hl]
  cases l with
  | nil => rfl
  | cons a l =>
    rw [slots_eq hl]
    exact rezorder_up_append id _ l a fun hm => hend (List.mem_cons_of_mem a hm)

theorem rezorder_top_slots {l : List Int} (id : Int) (hl : l.length ≤ MAX_CHANNELS)
    (hend : (-1 : Int) ∉ l) : rezorder_top id (slots l) = .ok (slots (moved id .TOP l)) := by
  rw [slots_moved id .TOP hl]
  cases l with
  | nil =>
    have hempty : slots [] = -1 :: -1 :: List.replicate (MAX_CHANNELS - 1) (-1) := rfl
    rw [hempty, moved_nil]
    simp [rezorder_top, MAX_CHANNELS]
  | cons a l =>
    rw [slots_eq hl]
    exact rezorder_top_append id _ l a fun hm => hend (List.mem_cons_of_mem a hm)

theorem rezorder_down_slots {l : List Int} {id : Int} (hl : l.length ≤ MAX_CHANNELS)
    (hend : (-1 : Int) ∉ l) (hid : 0 ≤ id) :
    rezorder_down id (slots l) = .ok (slots (moved id .DOWN l)) := by
  unfold rezorder_down
  simp only [scan_id hl hend, slot_id hl hid]
  by_cases hm : id ∈ l
  · obtain ⟨xs, ys, hsplit, hxs, hidx⟩ := split_first hm
    simp only [hm, if_true, and_true]
    rcases List.eq_nil_or_concat xs with rfl | ⟨ws, w, rfl⟩
    · have hzero : l.idxOf id = 0 := by rw [← hidx]; rfl
      have hsame : moved id .DOWN l = l := by
        simp only [moved, hsplit, List.nil_append, down_first]
      simp only [hzero, Nat.lt_irrefl, if_false, hsame]
    · rw [List.concat_eq_append] at *
      have hpos : l.idxOf id = ws.length + 1 := by rw [← hidx]; simp
      have hdown : moved id .DOWN l = ws ++ id :: w :: ys := by
        rw [hsplit, List.append_assoc]
        exact down_split w ys hxs
      have hshape : slots l =
          ws ++ w :: id :: (ys ++ -1 :: List.replicate (MAX_CHANNELS - l.length) (-1)) := by
        rw [slots_eq hl, hsplit]
        simp
      simp only [hpos, Nat.succ_pos, if_true, Nat.add_sub_cancel]
      rw [slots_moved id .DOWN hl, hdown, hshape, swap_append]
      simp
  · have hsame : moved id .DOWN l = l := down_absent hm
    simp only [hm, if_false, and_false, hsame]

/-- What BOTTOM makes of the array: `id` first, then the old first id in each
slot up to the old place of `id`. -/
theorem rezorder_bottom_slots {l : List Int} {id : Int} (hl : l.length ≤ MAX_CHANNELS)
    (hend : (-1 : Int) ∉ l) (hid : 0 ≤ id) {xs ys : List Int} (hsplit : l = xs ++ id :: ys)
    (hxs : id ∉ xs) :
    rezorder_bottom id (slots l) =
      .ok (slots (id :: List.replicate xs.length (l.headD (-1)) ++ ys)) := by
  have hm : id ∈ l := by rw [hsplit]; simp
  have hidx : l.idxOf id = xs.length := by
    rw [hsplit, List.idxOf_append_of_notMem hxs, List.idxOf_cons_self]
    rfl
  have hlen : (id :: List.replicate xs.length (l.headD (-1)) ++ ys).length = l.length := by
    rw [hsplit]
    simp
    omega
  have hslot := (slot_id hl hid).mpr hm
  rw [if_pos hm, hidx] at hslot
  unfold rezorder_bottom
  simp only [scan_id hl hend, if_pos hm, hidx, if_pos hslot]
  congr 1
  rw [slots_eq hl, slots_eq (hlen.trans_le hl), hlen]
  cases xs with
  | nil => simp [hsplit, shift_back]
  | cons x xs =>
    have hshape : l ++ -1 :: List.replicate (MAX_CHANNELS - l.length) (-1) =
        x :: (xs ++ id :: (ys ++ -1 :: List.replicate (MAX_CHANNELS - l.length) (-1))) := by
      conv_lhs => arg 1; rw [hsplit]
      simp
    rw [hshape, shift_back_cons _ _ _ (by simp), List.replicate_succ, List.cons_append,
      List.set_cons_zero, List.length_cons, List.drop_append, List.drop_of_length_le (by omega)]
    simp [hsplit]

/-- BOTTOM is the move of `toBottom` when `id` is first or second. -/
theorem rezorder_bottom_near {l : List Int} {id : Int} (hl : l.length ≤ MAX_CHANNELS)
    (hend : (-1 : Int) ∉ l) (hid : 0 ≤ id) (hnear : id ∈ l → l.idxOf id ≤ 1) :
    rezorder_bottom id (slots l) = .ok (slots (moved id .BOTTOM l)) := by
  by_cases hm : id ∈ l
  · obtain ⟨xs, ys, hsplit, hxs, hidx⟩ := split_first hm
    have hlen : xs.length ≤ 1 := hidx ▸ hnear hm
    have hmoved : moved id .BOTTOM l = id :: (xs ++ ys) := by
      simp only [moved, toBottom, if_pos hm]
      rw [hsplit, erase_split ys hxs]
    rw [rezorder_bottom_slots hl hend hid hsplit hxs, hmoved]
    match xs, hlen, hsplit with
    | [], _, _ => rfl
    | [x], _, hsplit => simp [hsplit]
  · have hslot := mt (slot_id hl hid).mp hm
    rw [if_neg hm] at hslot
    have hsame : moved id .BOTTOM l = l := by simp only [moved, toBottom, if_neg hm]
    unfold rezorder_bottom
    simp only [scan_id hl hend, if_neg hm, if_neg hslot, hsame]

section

variable {m : CTX} {l : List Int}

/-- A move of a channel, where it is not a BOTTOM from far up. -/
theorem Lists.rezorder (h : Lists m l) {id : Int} (oper : ZOrderOper) (h0 : 0 ≤ id)
    (h1 : id < MAX_CHANNELS) (hnear : oper = .BOTTOM → id ∈ l → l.idxOf id ≤ 1) :
    m.rezorder id oper = .ok (0, { m with zorder_ := slots (moved id oper l) }) := by
  have hr : ¬(id < 0 ∨ (MAX_CHANNELS : Int) ≤ id) := by omega
  unfold CTX.rezorder
  rw [if_neg hr, h.array]
  cases oper with
  | UP => simp only [rezorder_up_slots id h.length_le h.no_end]
  | DOWN => simp only [rezorder_down_slots h.length_le h.no_end h0]
  | TOP => simp only [rezorder_top_slots id h.length_le h.no_end]
  | BOTTOM => simp only [rezorder_bottom_near h.length_le h.no_end h0 (hnear rfl)]

theorem rezorder_orders (h : Orders m l) {id : Int} (oper : ZOrderOper) (h0 : 0 ≤ id)
    (h1 : id < MAX_CHANNELS) (hnear : oper = .BOTTOM → id ∈ l → l.idxOf id ≤ 1) :
    m.rezorder id oper = .ok (0, { m with zorder_ := slots (moved id oper l) }) :=
  h.lists.rezorder oper h0 h1 hnear

theorem Lists.permute (h : Lists m l) {l' : List Int} (hp : l'.Perm l) :
    Lists { m with zorder_ := slots l' } l' :=
  ⟨rfl, hp.nodup_iff.mpr h.nodup, fun i hi => h.range i (hp.mem_iff.mp hi)⟩

/-- The same channels in a new order. -/
theorem Orders.permute (h : Orders m l) {l' : List Int} (hp : l'.Perm l) :
    Orders { m with zorder_ := slots l' } l' where
  array := rfl
  nodup := hp.nodup_iff.mpr h.nodup
  employed i := hp.mem_iff.trans (h.employed i)

theorem rezorder_invalid {id : Int} (oper : ZOrderOper) (h : id < 0 ∨ (MAX_CHANNELS : Int) ≤ id) :
    m.rezorder id oper = .ok (-1, m) := by
  simp only [CTX.rezorder, if_pos h]

/-- The list in the array is the array without the -1 slots. -/
theorem Lists.order (h : Lists m l) : m.order = l := by
  have hkeep : l.filter (· ≠ -1) = l := List.filter_eq_self.mpr fun i hi => by
    have := (h.range i hi).1
    simp only [decide_eq_true_eq]
    omega
  unfold CTX.order
  rw [h.array, slots, List.filter_append, hkeep, List.filter_replicate]
  simp

theorem Orders.order (h : Orders m l) : m.order = l := h.lists.order

theorem Orders.mem_array (h : Orders m l) {i : Int} (hi : i ∈ l) : i ∈ m.zorder_ := by
  rw [h.array, mem_slots (h.range hi).1]
  exact hi

/-- BOTTOM from the third place on makes the first channel come twice. -/
theorem rezorder_bottom_far (h : Lists m l) {id : Int} (hm : id ∈ l) (hfar : 1 < l.idxOf id) :
    ∃ m', m.rezorder id .BOTTOM = .ok (0, m') ∧ ¬ m'.order.Nodup := by
  obtain ⟨h0, h1⟩ := h.range id hm
  obtain ⟨xs, ys, hsplit, hxs, hidx⟩ := split_first hm
  obtain ⟨x, w, xs, rfl⟩ : ∃ x w ws, xs = x :: w :: ws := by
    match xs, hidx with
    | [], hidx => simp at hidx; omega
    | [x], hidx => simp at hidx; omega
    | x :: w :: ws, _ => exact ⟨x, w, ws, rfl⟩
  have hhead : l.headD (-1) = x := by rw [hsplit]; rfl
  have hx : x ≠ -1 := fun hx => h.no_end (by rw [hsplit, hx]; simp)
  have hr : ¬(id < 0 ∨ (MAX_CHANNELS : Int) ≤ id) := by omega
  refine ⟨{ m with zorder_ := slots (id :: List.replicate (xs.length + 1 + 1) x ++ ys) }, ?_, ?_⟩
  · simp only [CTX.rezorder, if_neg hr, h.array,
      rezorder_bottom_slots h.length_le h.no_end h0 hsplit hxs, hhead, List.length_cons]
  · intro hnd
    have hdup : [x, x].Sublist (slots (id :: List.replicate (xs.length + 1 + 1) x ++ ys)) := by
      simp [slots, List.replicate_succ]
    unfold CTX.order at hnd
    have hsub := hnd.sublist (hdup.filter _)
    simp [hx] at hsub

theorem Ordered.nodup (h : Ordered m) : m.order.Nodup := by
  obtain ⟨l, h⟩ := h
  rw [h.order]
  exact h.nodup

end

/-! ## The laws -/

/-- BOTTOM names a channel that is first or second in the z-order, or none. -/
def Lossless (m : CTX) : Op → Prop
  | .rezorder id .BOTTOM => 0 ≤ id → id ∈ m.zorder_ → m.zorder_.idxOf id ≤ 1
  | _ => True

theorem new_orders (want_alpha : Nat → Int) : Orders (CTX.new want_alpha) [] where
  array := rfl
  nodup := List.nodup_nil
  employed i := by simp [CTX.Employed, CTX.new, InputSource.new]

theorem step_of_call {m m' : CTX} {op : Op} {rc : Int} (h : m.call op = .ok (rc, m')) :
    step m op = .ok m' := by
  simp [step, h, Except.map]

/-- A step that is not lossy keeps the order. -/
theorem step_ordered (m : CTX) (op : Op) (h : Ordered m) (hop : Lossless m op) :
    ∃ m', step m op = .ok m' ∧ Ordered m' := by
  obtain ⟨l, h⟩ := h
  cases op with
  | get_channel =>
    rcases get_channel_orders h with ⟨hget, _⟩ | ⟨i, m', hget, _, _, h'⟩
    · exact ⟨m, step_of_call hget, l, h⟩
    · exact ⟨m', step_of_call hget, _, h'⟩
  | free_channel cid =>
    obtain ⟨rc, m', hfree, h'⟩ := free_channel_orders h cid
    exact ⟨m', step_of_call hfree, _, h'⟩
  | set_channel_desc desc =>
    obtain ⟨rc, m', hset, h'⟩ := set_channel_desc_orders h desc
    exact ⟨m', step_of_call hset, _, h'⟩
  | rezorder id oper =>
    by_cases hr : id < 0 ∨ (MAX_CHANNELS : Int) ≤ id
    · exact ⟨m, step_of_call (rezorder_invalid oper hr), l, h⟩
    · have hnear : oper = .BOTTOM → id ∈ l → l.idxOf id ≤ 1 := by
        rintro rfl hm
        have := hop (by omega)
        rw [h.array, mem_slots (by omega), idxOf_slots hm] at this
        exact this hm
      exact ⟨_, step_of_call (rezorder_orders h oper (by omega) (by omega) hnear), _,
        h.permute (moved_moves id oper l).1⟩

/-- A lossy step breaks the order at once. -/
theorem lossless_of_nodup {m m' : CTX} {op : Op} (h : Ordered m) (hs : step m op = .ok m')
    (h' : m'.order.Nodup) : Lossless m op := by
  obtain ⟨l, h⟩ := h
  match op, hs with
  | .rezorder id .BOTTOM, hs =>
    intro h0 hm
    rw [h.array, mem_slots h0] at hm
    rw [h.array, idxOf_slots hm]
    by_contra hfar
    obtain ⟨m'', hfault, hnot⟩ := rezorder_bottom_far h.lists hm (by omega)
    have hbad : step m (.rezorder id .BOTTOM) = .ok m'' := step_of_call hfault
    rw [hbad] at hs
    cases hs
    exact hnot h'
  | .get_channel, _ => trivial
  | .free_channel _, _ => trivial
  | .set_channel_desc _, _ => trivial
  | .rezorder _ .UP, _ => trivial
  | .rezorder _ .DOWN, _ => trivial
  | .rezorder _ .TOP, _ => trivial

/-- The array lists the channels in use all along a run, exactly when each
BOTTOM of the run names a channel that is first or second at that time. -/
theorem zorder_lists_the_employed_channels (want_alpha : Nat → Int) (ops : List Op) :
    Along step Ordered (CTX.new want_alpha) ops ↔ Meets step Lossless (CTX.new want_alpha) ops :=
  along_iff_meets (fun _ h => h) step_ordered
    (fun _ _ _ h hs h' => lossless_of_nodup h hs h'.nodup) ops ⟨[], new_orders want_alpha⟩

/-- Three channels, and the third to the bottom: channel 0 comes twice, and
channel 1 is gone. -/
theorem bottom_loses_a_channel :
    ∃ m, run step (CTX.new fun _ => 255)
        [.get_channel, .get_channel, .get_channel, .rezorder 2 .BOTTOM] = .ok m ∧
      m.zorder_.take 4 = [2, 0, 0, -1] ∧ (m.channels_ 1).idle_ = false ∧ ¬ Ordered m := by
  refine ⟨_, rfl, rfl, rfl, ?_⟩
  rintro ⟨l, h⟩
  have h1 : (1 : Int) ∈ l := (h.employed 1).mpr ⟨by decide, by decide, rfl⟩
  exact absurd (h.mem_array h1) (by decide)

end zonekey_mcu.video_mixer
