-- How the four moves of the z-order agree with each other: TOP is UP until nothing changes, and
-- BOTTOM would be DOWN until nothing changes.
import ZonekeyMcu.ZOrder

open list_moves zonekey_mcu.video_mixer

namespace zonekey_mcu.zorder_moves

/-! ## Moves of the array -/

/-- The call ends, and leaves the mixer as `m'`. -/
def Does (id : Int) (oper : ZOrderOper) (m m' : CTX) : Prop :=
  ∃ rc, m.rezorder id oper = .ok (rc, m')

/-- The same call, made until nothing changes. -/
def Settles (id : Int) (oper : ZOrderOper) (m m' : CTX) : Prop :=
  Relation.ReflTransGen (Does id oper) m m' ∧ Does id oper m' m'

/-- The calls with this id agree with each other. -/
structure Agree (m : CTX) (l : List Int) (id : Int) : Prop where
  top : ∃ m', Does id .TOP m m' ∧ Settles id .UP m m'
  bottom : ∃ m', Does id .BOTTOM m m' ∧ Settles id .DOWN m m'
  up_down : id ∈ l → l.getLast? ≠ some id → ∃ m', Does id .UP m m' ∧ Does id .DOWN m' m
  others_keep_their_order : ∀ oper, ∃ m', Does id oper m m' ∧ others id m'.order = others id l
  absent : id ∉ l → ∀ oper, Does id oper m m

section

variable {m : CTX} {l : List Int} {id : Int}

theorem does_unique {oper : ZOrderOper} {a b : CTX} (ha : Does id oper m a)
    (hb : Does id oper m b) : a = b := by
  obtain ⟨rc, ha⟩ := ha
  obtain ⟨rc', hb⟩ := hb
  rw [ha] at hb
  cases hb
  rfl

/-- The mixer with another list. -/
def relist (m : CTX) (l : List Int) : CTX := { m with zorder_ := slots l }

theorem relist_same (h : Lists m l) : relist m l = m := by
  unfold relist
  rw [← h.array]

/-- A move other than a BOTTOM from far up. -/
theorem does_moved (h : Lists m l) {oper : ZOrderOper} (h0 : 0 ≤ id) (h1 : id < MAX_CHANNELS)
    (hnear : oper = .BOTTOM → id ∈ l → l.idxOf id ≤ 1) :
    Does id oper m (relist m (moved id oper l)) :=
  ⟨0, h.rezorder oper h0 h1 hnear⟩

/-- A call with an id that is not in the list changes nothing. -/
theorem does_nothing (h : Lists m l) (oper : ZOrderOper) (habsent : id ∉ l) :
    Does id oper m m := by
  by_cases hr : id < 0 ∨ (MAX_CHANNELS : Int) ≤ id
  · exact ⟨-1, rezorder_invalid oper hr⟩
  · have hsame : moved id oper l = l := by
      cases oper
      · exact up_absent habsent
      · exact down_absent habsent
      · exact if_neg habsent
      · exact if_neg habsent
    have hdoes : Does id oper m (relist m (moved id oper l)) :=
      does_moved h (by omega) (by omega) fun _ hm => absurd hm habsent
    rwa [hsame, relist_same h] at hdoes

/-- The same move, again and again: what it does to the list, it does to the array. -/
theorem repeats_does (h : Lists m l) {oper : ZOrderOper} (hoper : oper ≠ .BOTTOM) (h0 : 0 ≤ id)
    (h1 : id < MAX_CHANNELS) {l' : List Int} (hsteps : Repeats (moved id oper) l l') :
    Lists (relist m l') l' ∧ Relation.ReflTransGen (Does id oper) m (relist m l') := by
  induction hsteps with
  | refl =>
    rw [relist_same h]
    exact ⟨h, .refl⟩
  | tail _ hstep ih =>
    obtain ⟨hlists, hpath⟩ := ih
    subst hstep
    refine ⟨hlists.permute (moved_moves id oper _).1, hpath.tail ?_⟩
    exact does_moved hlists h0 h1 fun hbottom => absurd hbottom hoper

theorem settles_moved (h : Lists m l) {oper : ZOrderOper} (hoper : oper ≠ .BOTTOM) (h0 : 0 ≤ id)
    (h1 : id < MAX_CHANNELS) {l' : List Int} (hsteps : Repeats (moved id oper) l l')
    (hend : moved id oper l' = l') : Settles id oper m (relist m l') := by
  obtain ⟨hlists, hpath⟩ := repeats_does h hoper h0 h1 hsteps
  have hdoes := does_moved hlists h0 h1 fun hbottom => absurd hbottom hoper
  rw [hend] at hdoes
  exact ⟨hpath, hdoes⟩

/-- No call but BOTTOM makes an id come twice. -/
theorem nodup_after (h : Lists m l) {oper : ZOrderOper} (hoper : oper ≠ .BOTTOM) {m' : CTX}
    (hpath : Relation.ReflTransGen (Does id oper) m m') : m'.order.Nodup := by
  suffices hlists : ∃ l', Lists m' l' by
    obtain ⟨l', hlists⟩ := hlists
    rw [hlists.order]
    exact hlists.nodup
  induction hpath with
  | refl => exact ⟨l, h⟩
  | tail _ hdoes ih =>
    obtain ⟨l', hlists⟩ := ih
    by_cases hr : id < 0 ∨ (MAX_CHANNELS : Int) ≤ id
    · rw [does_unique hdoes ⟨-1, rezorder_invalid oper hr⟩]
      exact ⟨l', hlists⟩
    · have hmoved : Does id oper _ (relist _ (moved id oper l')) :=
        does_moved hlists (by omega) (by omega) fun hbottom => absurd hbottom hoper
      rw [does_unique hdoes hmoved]
      exact ⟨_, hlists.permute (moved_moves id oper l').1⟩

/-! ## The law -/

theorem far_bottom_disagrees (h : Lists m l) (hm : id ∈ l) (hfar : 1 < l.idxOf id) :
    ¬ Agree m l id := by
  intro hagree
  obtain ⟨m₁, hbottom, hsettles⟩ := hagree.bottom
  obtain ⟨m₂, hcall, hdup⟩ := rezorder_bottom_far h hm hfar
  rw [← does_unique hbottom ⟨0, hcall⟩] at hdup
  exact hdup (nodup_after h (by decide) hsettles.1)

theorem near_bottom_agrees (h : Lists m l) (hm : id ∈ l) (hnear : l.idxOf id ≤ 1) :
    Agree m l id := by
  obtain ⟨h0, h1⟩ := h.range id hm
  have hdoes : ∀ oper, Does id oper m (relist m (moved id oper l)) :=
    fun oper => does_moved h h0 h1 fun _ _ => hnear
  obtain ⟨hups, htop⟩ := toTop_repeats_up id h.nodup
  obtain ⟨hdowns, hbottom⟩ := toBottom_repeats_down id l
  refine ⟨⟨_, hdoes .TOP, ?_⟩, ⟨_, hdoes .BOTTOM, ?_⟩, ?_, ?_, ?_⟩
  · exact settles_moved h (by decide) h0 h1 hups htop
  · exact settles_moved h (by decide) h0 h1 hdowns hbottom
  · intro _ hlast
    refine ⟨_, hdoes .UP, ?_⟩
    have hback : Does id .DOWN (relist m (up id l)) (relist m (down id (up id l))) :=
      does_moved (h.permute (up_moves id l).1) h0 h1 fun hd => by cases hd
    rwa [down_up h.nodup hm hlast, relist_same h] at hback
  · intro oper
    refine ⟨_, hdoes oper, ?_⟩
    have hlists : Lists (relist m (moved id oper l)) (moved id oper l) :=
      h.permute (moved_moves id oper l).1
    rw [hlists.order]
    exact (moved_moves id oper l).2
  · exact fun hnot => absurd hm hnot

theorem absent_agrees (h : Lists m l) (habsent : id ∉ l) : Agree m l id := by
  have hsame := fun oper => does_nothing h oper habsent
  exact
    { top := ⟨m, hsame .TOP, .refl, hsame .UP⟩
      bottom := ⟨m, hsame .BOTTOM, .refl, hsame .DOWN⟩
      up_down := fun hin => absurd hin habsent
      others_keep_their_order := fun oper => ⟨m, hsame oper, by rw [h.order]⟩
      absent := fun _ => hsame }

/-- For every list of channels and every id the four calls agree if and only if the id is not in
the list, or first or second in it. -/
theorem the_moves_agree_unless_bottom_is_far (h : Lists m l) (id : Int) :
    Agree m l id ↔ id ∉ l ∨ l.idxOf id ≤ 1 := by
  by_cases hm : id ∈ l
  · constructor
    · intro hagree
      by_contra hfar
      rw [not_or, not_le] at hfar
      exact far_bottom_disagrees h hm hfar.2 hagree
    · rintro (hnot | hnear)
      · exact absurd hm hnot
      · exact near_bottom_agrees h hm hnear
  · exact ⟨fun _ => .inl hm, fun _ => absent_agrees h hm⟩

end

/-- Two channels. -/
def two_channels : CTX := relist (CTX.new fun _ => 255) [3, 1]

theorem the_moves_agree_unless_bottom_is_far_example :
    Agree two_channels [3, 1] 1 ↔ (1 : Int) ∉ [3, (1 : Int)] ∨ [3, (1 : Int)].idxOf 1 ≤ 1 :=
  the_moves_agree_unless_bottom_is_far ⟨rfl, by decide, by decide⟩ 1

/-- Of three channels, the third one to the bottom: two channels are now the first one. -/
theorem a_far_bottom_is_not_down_until_nothing_changes :
    Lists (relist (CTX.new fun _ => 255) [0, 1, 2]) [0, 1, 2] ∧
      ¬ Agree (relist (CTX.new fun _ => 255) [0, 1, 2]) [0, 1, 2] 2 := by
  refine ⟨⟨rfl, by decide, by decide⟩, fun hagree => ?_⟩
  obtain ⟨m, hdoes, hothers⟩ := hagree.others_keep_their_order .BOTTOM
  have hcall : Does 2 .BOTTOM (relist (CTX.new fun _ => 255) [0, 1, 2])
      (relist (CTX.new fun _ => 255) [2, 0, 0]) := ⟨0, rfl⟩
  rw [does_unique hdoes hcall] at hothers
  revert hothers
  decide

end zonekey_mcu.zorder_moves
