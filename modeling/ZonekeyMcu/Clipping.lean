-- The clipping of the video mixer: the rows that drawing a picture touches in the canvas and in
-- the picture, and when they lie inside both.
import ZonekeyMcu.Painting

open zonekey_mcu.canvas

namespace zonekey_mcu.clipping

deriving instance DecidableEq for POINT, Plane, AVPicture

/-! ## The rows that are touched -/

inductive Component where
  | y
  | u
  | v
  deriving DecidableEq

/-- A row of one plane: where it starts in the target and in the source, and its length. -/
structure Row where
  component : Component
  dst : POINT
  src : POINT
  width : Int
  deriving DecidableEq

def halved (pt : POINT) : POINT := ⟨pt.x.tdiv 2, pt.y.tdiv 2⟩

def below (pt : POINT) (n : Int) : POINT := ⟨pt.x, pt.y + n⟩

/-- The rows of one turn of the loop in `do_compiz`. -/
def turn (pt_dst pt_src : POINT) (width : Int) (i : Nat) : List Row :=
  [⟨.y, below pt_dst (2 * i), below pt_src (2 * i), width⟩,
    ⟨.y, below pt_dst (2 * i + 1), below pt_src (2 * i + 1), width⟩,
    ⟨.u, below (halved pt_dst) i, below (halved pt_src) i, width.tdiv 2⟩,
    ⟨.v, below (halved pt_dst) i, below (halved pt_src) i, width.tdiv 2⟩]

/-- The rows that `do_compiz` touches, in order. -/
def touched (pt_dst pt_src : POINT) (width height : Int) (alpha : UInt8) : List Row :=
  if alpha = 0 then [] else (List.range (height.tdiv 2).toNat).flatMap (turn pt_dst pt_src width)

/-- The rows that `do_compiz_safe` lets `do_compiz` touch, for the two sizes. -/
def safe_touched (dst_width dst_height src_width src_height x y : Int) (alpha : UInt8) :
    List Row :=
  match cut x src_width dst_width with
  | none => []
  | some (dst_x, src_x, width) =>
    match cut y src_height dst_height with
    | none => []
    | some (dst_y, src_y, height) => touched ⟨dst_x, dst_y⟩ ⟨src_x, src_y⟩ width height alpha

/-! ## The loop goes through these rows -/

def plane (p : AVPicture) : Component → Plane
  | .y => p.y
  | .u => p.u
  | .v => p.v

def set_plane (p : AVPicture) (data : Plane) : Component → AVPicture
  | .y => { p with y := data }
  | .u => { p with u := data }
  | .v => { p with v := data }

/-- What `do_compiz` does with the pixels of a row. -/
def row_of (alpha : UInt8) : RowCall :=
  if alpha = 255 then memcpy else do_pixels alpha

def paint_row (row : RowCall) (src dst : AVPicture) (r : Row) : Except Fault AVPicture := do
  let p := plane dst r.component
  let q := plane src r.component
  let data ← row p.data (at_point p r.dst.x r.dst.y) q.data (at_point q r.src.x r.src.y) r.width
  return set_plane dst ⟨data, p.linesize⟩ r.component

section

variable {row : RowCall} {src dst : AVPicture} {pt_dst pt_src : POINT} {width : Int}

theorem at_point_below (p : Plane) (x y : Int) :
    at_point p x y + p.linesize = at_point p x (y + 1) := by
  unfold at_point
  ring

/-- The pointers into a plane, at the start of a row. -/
def pointers (dst src : Plane) (pt_dst pt_src : POINT) : Pointers :=
  ⟨at_point dst pt_dst.x pt_dst.y, at_point src pt_src.x pt_src.y⟩

theorem pointers_next (p q : Plane) (n : Int) :
    (pointers p q (below pt_dst n) (below pt_src n)).next p q =
      pointers p q (below pt_dst (n + 1)) (below pt_src (n + 1)) := by
  unfold Pointers.next pointers below
  simp only [at_point_below, Int.add_assoc]

/-- From turn `i` on. -/
theorem compiz_rows_turns (i n : Nat) :
    compiz_rows row src width n dst
        (pointers dst.y src.y (below pt_dst (2 * i)) (below pt_src (2 * i)))
        (pointers dst.u src.u (below (halved pt_dst) i) (below (halved pt_src) i))
        (pointers dst.v src.v (below (halved pt_dst) i) (below (halved pt_src) i)) =
      ((List.range' i n).flatMap (turn pt_dst pt_src width)).foldlM (paint_row row src) dst := by
  induction n generalizing i dst with
  | zero => rfl
  | succ n ih =>
    have htwice : 2 * (i : Int) + 1 + 1 = 2 * ((i + 1 : Nat) : Int) := by
      push_cast
      ring
    have honce : (i : Int) + 1 = ((i + 1 : Nat) : Int) := by
      push_cast
      rfl
    rw [List.range'_succ, List.flatMap_cons, List.foldlM_append]
    unfold compiz_rows
    simp only [pointers_next, htwice, honce]
    simp only [turn, List.foldlM_cons, List.foldlM_nil, paint_row, bind_assoc, pure_bind]
    refine bind_congr fun y₁ => bind_congr fun y₂ => bind_congr fun u => bind_congr fun v => ?_
    exact ih (i + 1)

theorem compiz_rows_start (n : Nat) :
    compiz_rows row src width n dst (pointers dst.y src.y pt_dst pt_src)
        (pointers dst.u src.u (halved pt_dst) (halved pt_src))
        (pointers dst.v src.v (halved pt_dst) (halved pt_src)) =
      ((List.range n).flatMap (turn pt_dst pt_src width)).foldlM (paint_row row src) dst := by
  have hluma : ∀ pt : POINT, below pt (2 * ((0 : Nat) : Int)) = pt := by simp [below]
  have hchroma : ∀ pt : POINT, below pt ((0 : Nat) : Int) = pt := by simp [below]
  rw [List.range_eq_range', ← compiz_rows_turns 0 n]
  simp only [hluma, hchroma]

theorem do_compiz_rows (height : Int) (alpha : UInt8) :
    do_compiz dst pt_dst src pt_src width height alpha =
      (touched pt_dst pt_src width height alpha).foldlM (paint_row (row_of alpha) src) dst := by
  unfold do_compiz touched row_of
  by_cases hopaque : alpha = 255
  · subst hopaque
    exact compiz_rows_start _
  · rw [if_neg hopaque, if_neg hopaque]
    by_cases hclear : alpha = 0
    · rw [if_pos hclear, if_pos hclear]
      rfl
    · rw [if_neg hclear, if_neg hclear]
      exact compiz_rows_start _

end

theorem do_compiz_safe_rows (dst src : YUV) (x y : Int) (alpha : UInt8) :
    do_compiz_safe dst src x y alpha =
      (safe_touched dst.width dst.height src.width src.height x y alpha).foldlM
        (paint_row (row_of alpha) src.pic) dst.pic := by
  unfold do_compiz_safe safe_touched
  cases cut x src.width dst.width with
  | none => rfl
  | some columns =>
    cases cut y src.height dst.height with
    | none => rfl
    | some rows => exact do_compiz_rows _ _

/-! ## Inside -/

/-- The size of a plane, in one direction. A plane of U or V can have a pixel more when `n` is
odd, but then the rows of Y are the first to leave their plane. -/
def extent (n : Nat) : Component → Nat
  | .y => n
  | .u => n / 2
  | .v => n / 2

/-- The row lies inside the target and inside the source. -/
structure Row.Inside (r : Row) (dst_width dst_height src_width src_height : Nat) : Prop where
  dst_left : 0 ≤ r.dst.x
  dst_right : r.dst.x + r.width ≤ extent dst_width r.component
  dst_top : 0 ≤ r.dst.y
  dst_bottom : r.dst.y < extent dst_height r.component
  src_left : 0 ≤ r.src.x
  src_right : r.src.x + r.width ≤ extent src_width r.component
  src_top : 0 ≤ r.src.y
  src_bottom : r.src.y < extent src_height r.component

section

variable {W H w h X Y X' Y' n m : Nat}

/-- A turn lies inside, where the whole rectangle does. -/
theorem turn_inside (hX : X + n ≤ W) (hX' : X' + n ≤ w) (hY : Y + m / 2 * 2 ≤ H)
    (hY' : Y' + m / 2 * 2 ≤ h) {i : Nat} (hi : i < m / 2) :
    ∀ r ∈ turn ⟨X, Y⟩ ⟨X', Y'⟩ n i, 0 ≤ r.width ∧ r.Inside W H w h := by
  intro r hr
  unfold turn halved below at hr
  simp only [tdiv_two, List.mem_cons, List.not_mem_nil, or_false] at hr
  rcases hr with rfl | rfl | rfl | rfl
  all_goals
    refine ⟨?_, ?_, ?_, ?_, ?_, ?_, ?_, ?_, ?_⟩
    all_goals
      dsimp only [extent]
      omega

theorem mem_touched {pt_dst pt_src : POINT} {alpha : UInt8} {r : Row}
    (hr : r ∈ touched pt_dst pt_src n m alpha) : ∃ i < m / 2, r ∈ turn pt_dst pt_src n i := by
  unfold touched at hr
  rw [tdiv_two, Int.toNat_natCast] at hr
  by_cases hclear : alpha = 0
  · rw [if_pos hclear] at hr
    exact absurd hr List.not_mem_nil
  · rw [if_neg hclear] at hr
    obtain ⟨i, hi, hturn⟩ := List.mem_flatMap.mp hr
    exact ⟨i, List.mem_range.mp hi, hturn⟩

theorem turn_width {pt_dst pt_src : POINT} {i : Nat} (hn : n = 0) {r : Row}
    (hr : r ∈ turn pt_dst pt_src n i) : r.width = 0 := by
  subst hn
  unfold turn at hr
  simp only [List.mem_cons, List.not_mem_nil, or_false] at hr
  rcases hr with rfl | rfl | rfl | rfl
  all_goals rfl

/-- Whether the rows of a rectangle that lies inside the source lie inside the target. -/
theorem touched_inside {alpha : UInt8} (hY' : Y' + m ≤ h) (hX' : X' + n ≤ w) :
    (∀ r ∈ touched ⟨X, Y⟩ ⟨X', Y'⟩ n m alpha, r.width = 0 ∨ r.Inside W H w h) ↔
      alpha = 0 ∨ n = 0 ∨ m < 2 ∨ X + n ≤ W ∧ Y + m / 2 * 2 ≤ H := by
  constructor
  · intro hinside
    by_cases hclear : alpha = 0
    · exact .inl hclear
    by_cases hfew : m < 2
    · exact .inr (.inr (.inl hfew))
    -- The last row of Y reaches lowest.
    obtain ⟨i, hi⟩ : ∃ i, i + 1 = m / 2 := ⟨m / 2 - 1, by omega⟩
    have hmem : ⟨.y, below ⟨X, Y⟩ (2 * i + 1), below ⟨X', Y'⟩ (2 * i + 1), n⟩ ∈
        touched ⟨X, Y⟩ ⟨X', Y'⟩ n m alpha := by
      unfold touched
      rw [if_neg hclear, tdiv_two, Int.toNat_natCast]
      exact List.mem_flatMap.mpr ⟨i, List.mem_range.mpr (by omega), by simp [turn]⟩
    rcases hinside _ hmem with hempty | hlast
    · dsimp only at hempty
      omega
    · have hright := hlast.dst_right
      have hbottom := hlast.dst_bottom
      dsimp only [below, extent] at hright hbottom
      omega
  · intro hfits r hr
    obtain ⟨i, hi, hturn⟩ := mem_touched hr
    rcases hfits with hclear | hempty | hfew | ⟨hX, hY⟩
    · unfold touched at hr
      rw [if_pos hclear] at hr
      exact absurd hr List.not_mem_nil
    · exact .inl (turn_width hempty hturn)
    · omega
    · exact .inr (turn_inside hX hX' hY (by omega) hi r hturn).2

end

/-! ## What lies inside is painted -/

theorem row_of_combines (alpha : UInt8) : ∃ f, Combines (row_of alpha) f := by
  unfold row_of
  by_cases hopaque : alpha = 255
  · rw [if_pos hopaque]
    exact ⟨_, memcpy_combines⟩
  · rw [if_neg hopaque]
    exact ⟨_, do_pixels_combines alpha⟩

section

variable {canvas pic : AVPicture} {W H w h : Nat}

theorem plane_holds (hp : pic.Holds w h) (c : Component) :
    (plane pic c).Holds (extent w c) (extent h c) := by
  cases c with
  | y => exact hp.y
  | u => exact hp.u
  | v => exact hp.v

theorem set_plane_holds (hp : pic.Holds w h) {c : Component} {p : Plane}
    (hplane : p.Holds (extent w c) (extent h c)) : (set_plane pic p c).Holds w h := by
  cases c with
  | y => exact ⟨hplane, hp.u, hp.v⟩
  | u => exact ⟨hp.y, hplane, hp.v⟩
  | v => exact ⟨hp.y, hp.u, hplane⟩

/-- A row that lies inside a plane lies inside its memory. -/
theorem at_point_inside {p : Plane} (hp : p.Holds w h) {x y n : Int} (hx : 0 ≤ x) (hn : 0 ≤ n)
    (hright : x + n ≤ w) (hy : 0 ≤ y) (hbottom : y < h) :
    ∃ k : Nat, at_point p x y = k ∧ k + n ≤ p.data.length := by
  obtain ⟨x, rfl⟩ := Int.eq_ofNat_of_zero_le hx
  obtain ⟨y, rfl⟩ := Int.eq_ofNat_of_zero_le hy
  obtain ⟨n, rfl⟩ := Int.eq_ofNat_of_zero_le hn
  have hwide := hp.wide
  have hlong := row_le hp (by omega : y < h)
  rw [Nat.succ_mul] at hlong
  exact ⟨y * p.linesize + x, at_point_nat p x y, by omega⟩

theorem paint_row_inside (alpha : UInt8) (hc : canvas.Holds W H) (hp : pic.Holds w h) {r : Row}
    (hwidth : 0 ≤ r.width) (hr : r.Inside W H w h) :
    ∃ c, paint_row (row_of alpha) pic canvas r = .ok c ∧ c.Holds W H := by
  obtain ⟨f, hf⟩ := row_of_combines alpha
  have hdst := plane_holds hc r.component
  obtain ⟨d, hd, hdfits⟩ :=
    at_point_inside hdst hr.dst_left hwidth hr.dst_right hr.dst_top hr.dst_bottom
  obtain ⟨s, hs, hsfits⟩ := at_point_inside (plane_holds hp r.component) hr.src_left hwidth
    hr.src_right hr.src_top hr.src_bottom
  obtain ⟨n, hn⟩ := Int.eq_ofNat_of_zero_le hwidth
  rw [hn] at hdfits hsfits
  have hdfits' : d + n ≤ (plane canvas r.component).data.length := by omega
  have hsfits' : s + n ≤ (plane pic r.component).data.length := by omega
  obtain ⟨data, hrow, hlen⟩ := hf.keeps_length hdfits' hsfits'
  unfold paint_row
  dsimp only
  rw [hd, hs, hn, hrow, ok_bind]
  refine ⟨_, rfl, set_plane_holds hc ⟨hdst.wide, ?_⟩⟩
  rw [hlen]
  exact hdst.long

/-- Rows that lie inside are painted without a fault. -/
theorem rows_inside_are_painted (alpha : UInt8) {rows : List Row} (hc : canvas.Holds W H)
    (hp : pic.Holds w h) (hrows : ∀ r ∈ rows, 0 ≤ r.width ∧ r.Inside W H w h) :
    ∃ c, rows.foldlM (paint_row (row_of alpha) pic) canvas = .ok c ∧ c.Holds W H := by
  induction rows generalizing canvas with
  | nil => exact ⟨canvas, rfl, hc⟩
  | cons r rows ih =>
    obtain ⟨hwidth, hr⟩ := hrows r List.mem_cons_self
    obtain ⟨c, hpaint, hc'⟩ := paint_row_inside alpha hc hp hwidth hr
    obtain ⟨c', hrest, hholds⟩ := ih hc' fun r hr => hrows r (List.mem_cons_of_mem _ hr)
    refine ⟨c', ?_, hholds⟩
    rw [List.foldlM_cons, hpaint, ok_bind]
    exact hrest

end

/-! ## The cuts -/

/-- The part that is left: where it starts in the target and in the source, and its length. Only
a source that starts on the target is cut off at its end. -/
structure Part (x : Int) (w W d s n : Nat) : Prop where
  source : s + n ≤ w
  cases : x < 0 ∧ d = 0 ∧ (n : Int) = x + w ∧ 0 < n ∨
    x = d ∧ d + n ≤ W ∧ d < W ∧ (n = w ∨ n = W - d)

theorem cut_parts (x : Int) (w W : Nat) :
    (cut x w W = none ∧ (W ≤ x ∨ x + w ≤ 0)) ∨
      ∃ d s n : Nat, cut x w W = some ((d : Int), (s : Int), (n : Int)) ∧ Part x w W d s n := by
  unfold cut
  by_cases hx : x ≥ 0
  · obtain ⟨d, rfl⟩ := Int.eq_ofNat_of_zero_le hx
    rw [if_pos hx]
    by_cases hout : (d : Int) ≥ W
    · exact .inl ⟨if_pos hout, .inl hout⟩
    · rw [if_neg hout]
      refine .inr ⟨d, 0, min w (W - d), ?_, ?_, ?_⟩
      · congr 3
        omega
      all_goals omega
  · rw [if_neg hx]
    by_cases hout : 0 - x ≥ w
    · exact .inl ⟨if_pos hout, .inr (by omega)⟩
    · rw [if_neg hout]
      refine .inr ⟨0, (-x).toNat, (w + x).toNat, ?_, ?_, ?_⟩
      · congr 3
        all_goals omega
      all_goals omega

/-! ## The law -/

/-- Drawing the picture touches nothing: it shows nothing, it does not lie on the canvas, or less
than two of its rows do. -/
def Untouched (W H w h : Nat) (x y : Int) (alpha : UInt8) : Prop :=
  alpha = 0 ∨ w = 0 ∨ W ≤ x ∨ x + w ≤ 0 ∨ h < 2 ∨ y + h < 2 ∨ 0 ≤ y ∧ H < y + 2

/-- In both directions the picture starts on the canvas or behind it, or ends on it. A last row
of Y without a pair is not counted. -/
def EndsInside (W H w h : Nat) (x y : Int) : Prop :=
  (0 ≤ x ∨ x + w ≤ W) ∧ (0 ≤ y ∨ (y + h) / 2 * 2 ≤ H)

/-- A picture that ends on the canvas is drawn without a fault. -/
theorem a_picture_that_ends_inside_is_drawn {canvas pic : AVPicture} {W H w h : Nat}
    (hc : canvas.Holds W H) (hp : pic.Holds w h) {x y : Int} (hends : EndsInside W H w h x y)
    (alpha : UInt8) :
    ∃ c, do_compiz_safe ⟨canvas, W, H⟩ ⟨pic, w, h⟩ x y alpha = .ok c ∧ c.Holds W H := by
  unfold EndsInside at hends
  rw [do_compiz_safe_rows]
  refine rows_inside_are_painted alpha hc hp ?_
  unfold safe_touched
  rcases cut_parts x w W with ⟨hcut, -⟩ | ⟨d, s, n, hcut, hpart⟩
  · rw [hcut]
    exact fun r hr => absurd hr List.not_mem_nil
  rcases cut_parts y h H with ⟨hcut', -⟩ | ⟨d', s', m, hcut', hpart'⟩
  · rw [hcut, hcut']
    exact fun r hr => absurd hr List.not_mem_nil
  rw [hcut, hcut']
  intro r hr
  obtain ⟨i, hi, hturn⟩ := mem_touched hr
  obtain ⟨hsource, hcases⟩ := hpart
  obtain ⟨hsource', hcases'⟩ := hpart'
  exact turn_inside (by omega) (by omega) (by omega) (by omega) hi r hturn

/-- The rows that drawing touches, empty ones apart, lie inside the canvas and the picture if and
only if there are none, or the picture does not stick out on both sides of the canvas. -/
theorem the_rows_are_inside_unless_both_sides_stick_out (canvas pic : AVPicture) (W H w h : Nat)
    (x y : Int) (alpha : UInt8) :
    do_compiz_safe ⟨canvas, W, H⟩ ⟨pic, w, h⟩ x y alpha =
        (safe_touched W H w h x y alpha).foldlM (paint_row (row_of alpha) pic) canvas ∧
      ((∀ r ∈ safe_touched W H w h x y alpha, r.width = 0 ∨ r.Inside W H w h) ↔
        Untouched W H w h x y alpha ∨ EndsInside W H w h x y) := by
  refine ⟨do_compiz_safe_rows _ _ x y alpha, ?_⟩
  unfold safe_touched Untouched EndsInside
  have hnone : ∀ r ∈ ([] : List Row), r.width = 0 ∨ r.Inside W H w h :=
    fun r hr => absurd hr List.not_mem_nil
  rcases cut_parts x w W with ⟨hcut, hout⟩ | ⟨d, s, n, hcut, hpart⟩
  · rw [hcut]
    exact ⟨fun _ => by omega, fun _ => hnone⟩
  · rw [hcut]
    dsimp only
    rcases cut_parts y h H with ⟨hcut', hout⟩ | ⟨d', s', m, hcut', hpart'⟩
    · rw [hcut']
      exact ⟨fun _ => by omega, fun _ => hnone⟩
    · rw [hcut']
      dsimp only
      rw [touched_inside hpart'.source hpart.source]
      obtain ⟨hsource, hcases⟩ := hpart
      obtain ⟨hsource', hcases'⟩ := hpart'
      constructor
      · rintro (hclear | hin)
        · exact .inl (.inl hclear)
        · omega
      · rintro ((hclear | hout) | hin)
        · exact .inl hclear
        · omega
        · omega

/-- A picture of 8x8 that starts one pixel left of a canvas of 4x4: rows of 7 pixels are copied to
the canvas, and the last one ends behind its memory. -/
theorem a_wide_picture_is_not_cut :
    (¬ ∀ r ∈ safe_touched 4 4 8 8 (-1) 0 255, r.width = 0 ∨ r.Inside 4 4 8 8) ∧
      do_compiz_safe ⟨yuv420p 0 4 4, 4, 4⟩ ⟨yuv420p 0x10 8 8, 8, 8⟩ (-1) 0 255 =
        .error .outOfBounds := by
  refine ⟨fun hinside => ?_, by decide +kernel⟩
  rcases hinside ⟨.y, ⟨0, 0⟩, ⟨1, 0⟩, 7⟩ (by decide +kernel) with hempty | hrow
  · exact absurd hempty (by decide)
  · exact absurd hrow.dst_right (by decide)

end zonekey_mcu.clipping
