-- The blending of the video mixer: what `draw_yuv` makes of each luma pixel, for every alpha and
-- every size of the canvas and of the picture.
import ZonekeyMcu.Clipping

open raster zonekey_mcu.canvas zonekey_mcu.clipping

namespace zonekey_mcu.blending

/-! ## One pixel -/

/-- `v` is what a pixel `d` of the canvas has to become under a pixel `s` of the picture. -/
structure Due (alpha d s v : UInt8) : Prop where
  covered : alpha = 255 → v = s
  blended : alpha ≠ 0 → alpha ≠ 255 →
    v.toNat = (d.toNat * (256 - alpha.toNat) + s.toNat * alpha.toNat) / 256 ∧
      min d.toNat s.toNat ≤ v.toNat ∧ v.toNat ≤ max d.toNat s.toNat
  clear : alpha = 0 → v = d

/-- The one value that is due. -/
def due (alpha d s : UInt8) : UInt8 :=
  if alpha = 255 then s else if alpha = 0 then d else do_pixel alpha d s

/-- A weighted mean lies between the two values. -/
theorem mean_between (d s : Nat) {a n : Nat} (ha : a ≤ n) (hn : 0 < n) :
    min d s ≤ (d * (n - a) + s * a) / n ∧ (d * (n - a) + s * a) / n ≤ max d s := by
  have hweights : ∀ m : Nat, m * (n - a) + m * a = m * n := by
    intro m
    rw [← Nat.mul_add, Nat.sub_add_cancel ha]
  constructor
  · rw [Nat.le_div_iff_mul_le hn, ← hweights]
    exact Nat.add_le_add (Nat.mul_le_mul_right _ (Nat.min_le_left d s))
      (Nat.mul_le_mul_right _ (Nat.min_le_right d s))
  · apply Nat.div_le_of_le_mul
    rw [Nat.mul_comm n, ← hweights]
    exact Nat.add_le_add (Nat.mul_le_mul_right _ (Nat.le_max_left d s))
      (Nat.mul_le_mul_right _ (Nat.le_max_right d s))

theorem do_pixel_mean (alpha d s : UInt8) :
    (do_pixel alpha d s).toNat =
        (d.toNat * (256 - alpha.toNat) + s.toNat * alpha.toNat) / 256 ∧
      min d.toNat s.toNat ≤ (do_pixel alpha d s).toNat ∧
      (do_pixel alpha d s).toNat ≤ max d.toNat s.toNat := by
  have halpha : alpha.toNat ≤ 256 := Nat.le_of_lt alpha.toNat_lt
  obtain ⟨hlow, hhigh⟩ := mean_between d.toNat s.toNat halpha (by decide)
  have hd := d.toNat_lt
  have hs := s.toNat_lt
  have hvalue : (do_pixel alpha d s).toNat =
      (d.toNat * (256 - alpha.toNat) + s.toNat * alpha.toNat) / 256 := by
    unfold do_pixel
    apply UInt8.toNat_ofNat_of_lt'
    have hbyte : max d.toNat s.toNat < 2 ^ 8 := by omega
    exact Nat.lt_of_le_of_lt hhigh hbyte
  rw [hvalue]
  exact ⟨rfl, hlow, hhigh⟩

theorem due_iff {alpha d s v : UInt8} : Due alpha d s v ↔ v = due alpha d s := by
  unfold due
  constructor
  · intro h
    by_cases hfull : alpha = 255
    · rw [if_pos hfull]
      exact h.covered hfull
    · rw [if_neg hfull]
      by_cases hzero : alpha = 0
      · rw [if_pos hzero]
        exact h.clear hzero
      · rw [if_neg hzero]
        apply UInt8.toNat_inj.mp
        rw [(do_pixel_mean alpha d s).1]
        exact (h.blended hzero hfull).1
  · rintro rfl
    refine ⟨fun hfull => if_pos hfull, fun hzero hfull => ?_, fun hzero => ?_⟩
    · rw [if_neg hfull, if_neg hzero]
      exact do_pixel_mean alpha d s
    · rw [hzero, if_neg (by decide), if_pos rfl]

theorem due_clear (d s : UInt8) : due 0 d s = d := by
  unfold due
  rw [if_neg (by decide), if_pos rfl]

/-! ## The rows that are painted -/

theorem row_of_due {alpha : UInt8} (hshown : alpha ≠ 0) : Combines (row_of alpha) (due alpha) := by
  unfold row_of due
  by_cases hfull : alpha = 255
  · simp only [if_pos hfull]
    exact memcpy_combines
  · simp only [if_neg hfull, if_neg hshown]
    exact do_pixels_combines alpha

theorem do_compiz_shown {dst src : AVPicture} {pt_dst pt_src : POINT} {width height : Int}
    {alpha : UInt8} (hshown : alpha ≠ 0) :
    do_compiz dst pt_dst src pt_src width height alpha =
      compiz_rows (row_of alpha) src width (height.tdiv 2).toNat dst
        ⟨at_point dst.y pt_dst.x pt_dst.y, at_point src.y pt_src.x pt_src.y⟩
        ⟨at_point dst.u (pt_dst.x.tdiv 2) (pt_dst.y.tdiv 2),
          at_point src.u (pt_src.x.tdiv 2) (pt_src.y.tdiv 2)⟩
        ⟨at_point dst.v (pt_dst.x.tdiv 2) (pt_dst.y.tdiv 2),
          at_point src.v (pt_src.x.tdiv 2) (pt_src.y.tdiv 2)⟩ := by
  unfold do_compiz row_of
  by_cases hfull : alpha = 255
  · simp only [if_pos hfull]
  · simp only [if_neg hfull, if_neg hshown]

theorem alpha_byte (alpha : UInt8) : UInt8.ofInt (alpha.toNat : Int) = alpha := by
  unfold UInt8.ofInt
  have hlt := alpha.toNat_lt
  have hsame : ((alpha.toNat : Int) % 2 ^ 8).toNat = alpha.toNat := by omega
  rw [hsame]
  exact UInt8.ofNat_toNat

section

variable {canvas pic : AVPicture} {W H w h X Y : Nat} {alpha : UInt8}

/-- The rows of the intersection, but for a last one without a pair. -/
def painted_rows (H h Y : Nat) : Nat := 2 * (min h (H - Y) / 2)

theorem draw_yuv_paints (hc : canvas.Holds W H) (hp : pic.Holds w h) (hshown : alpha ≠ 0)
    (hX : X < W) (hY : Y < H) :
    ∃ pic_, Canvas.draw_yuv ⟨W, H, canvas⟩ pic X Y w h alpha.toNat = .ok ⟨W, H, pic_⟩ ∧
      pic_.y.linesize = canvas.y.linesize ∧
      Paints canvas.y.linesize ⟨X, Y, min w (W - X), painted_rows H h Y⟩
        (combined (due alpha) canvas.y pic.y X Y) canvas.y.data pic_.y.data := by
  obtain ⟨pic_, hrows, -, hsize, hpaints⟩ := compiz_rows_paints (row_of_due hshown) hc hp
    (by omega : X + min w (W - X) ≤ W) (by omega : Y + min h (H - Y) ≤ H)
    (Nat.min_le_left _ _) (Nat.min_le_left _ _)
  refine ⟨pic_, ?_, hsize, hpaints⟩
  unfold Canvas.draw_yuv
  dsimp only
  rw [alpha_byte, do_compiz_safe_inside hX hY, do_compiz_shown hshown]
  dsimp only
  rw [tdiv_two, tdiv_two, tdiv_two, Int.toNat_natCast]
  exact congrArg (fun r => r >>= fun pic_ => Except.ok (Canvas.mk W H pic_)) hrows

theorem draw_yuv_nothing (hno : alpha = 0 ∨ W ≤ X ∨ H ≤ Y) :
    Canvas.draw_yuv ⟨W, H, canvas⟩ pic X Y w h alpha.toNat = .ok ⟨W, H, canvas⟩ := by
  unfold Canvas.draw_yuv
  dsimp only
  rw [alpha_byte]
  by_cases hout : W ≤ X ∨ H ≤ Y
  · rw [do_compiz_safe_outside hout]
    rfl
  · have hclear : alpha = 0 := by simpa [hout] using hno
    rw [do_compiz_safe_inside (by omega) (by omega), hclear]
    rfl

end

/-! ## The law -/

/-- `c'` is the canvas `c` with the picture blended in, where it lies on the canvas. -/
structure Blends (c c' : Canvas) (pic : AVPicture) (X Y w h : Nat) (alpha : UInt8) : Prop where
  inside : ∀ i j : Nat, i < c.width_ → j < c.height_ → within X Y w h i j →
    ∃ d s v, c.pic_.y.pixel i j = some d ∧ pic.y.pixel (i - X) (j - Y) = some s ∧
      c'.pic_.y.pixel i j = some v ∧ Due alpha d s v
  outside : ∀ i j : Nat, i < c.pic_.y.linesize →
    ¬ (i < c.width_ ∧ j < c.height_ ∧ within X Y w h i j) →
      c'.pic_.y.pixel i j = c.pic_.y.pixel i j

/-- The pixels of row `j` of the canvas already have the values that they are due. -/
def RowDue (canvas pic : AVPicture) (W w X Y j : Nat) (alpha : UInt8) : Prop :=
  ∀ i d s, X ≤ i → i < X + w → i < W → canvas.y.pixel i j = some d →
    pic.y.pixel (i - X) (j - Y) = some s → d = due alpha d s

section

variable {canvas pic : AVPicture} {W H w h X Y : Nat} {alpha : UInt8}

/-- What is blended, where the rows from `m` on keep their values. -/
theorem blends_iff {pic_ : AVPicture} {m : Nat} (hc : canvas.Holds W H) (hp : pic.Holds w h)
    (hsize : pic_.y.linesize = canvas.y.linesize) (hm : m ≤ min h (H - Y))
    (hpaints : Paints canvas.y.linesize ⟨X, Y, min w (W - X), m⟩
      (combined (due alpha) canvas.y pic.y X Y) canvas.y.data pic_.y.data) :
    Blends ⟨W, H, canvas⟩ ⟨W, H, pic_⟩ pic X Y w h alpha ↔
      ∀ j, Y + m ≤ j → j < Y + h → j < H → RowDue canvas pic W w X Y j alpha := by
  have hwide := hc.y.wide
  have hinside : ∀ i j, i < canvas.y.linesize → Rect.contains ⟨X, Y, min w (W - X), m⟩ i j →
      pic_.y.pixel i j = combined (due alpha) canvas.y pic.y X Y i j := by
    intro i j hi hin
    unfold Plane.pixel
    rw [hsize]
    exact hpaints.inside i j hi hin
  have houtside : ∀ i j, i < canvas.y.linesize → ¬ Rect.contains ⟨X, Y, min w (W - X), m⟩ i j →
      pic_.y.pixel i j = canvas.y.pixel i j := by
    intro i j hi hout
    unfold Plane.pixel
    rw [hsize]
    exact hpaints.outside i j hi hout
  unfold Rect.contains at hinside houtside
  dsimp only at hinside houtside
  constructor
  · intro hblends j hbelow hj hjH i d s hXi hi hiW hd hs
    obtain ⟨d', s', v, hd', hs', hv, hdue⟩ := hblends.inside i j (Int.ofNat_lt.mpr hiW)
      (Int.ofNat_lt.mpr hjH) (within_iff.mpr ⟨hXi, hi, by omega, hj⟩)
    rw [houtside i j (by omega) (by omega)] at hv
    dsimp only at hd'
    rw [hd] at hd' hv
    rw [hs] at hs'
    cases hd'
    cases hs'
    cases hv
    exact due_iff.mp hdue
  · intro hrows
    refine ⟨fun i j hi hj hin => ?_, fun i j hi hout => ?_⟩
    · obtain ⟨hXi, hi', hYj, hj'⟩ := within_iff.mp hin
      dsimp only at hi hj
      obtain ⟨d, hd⟩ := pixel_some hc.y (by omega : i < W) (by omega : j < H)
      obtain ⟨s, hs⟩ := pixel_some hp.y (by omega : i - X < w) (by omega : j - Y < h)
      refine ⟨d, s, due alpha d s, hd, hs, ?_, due_iff.mpr rfl⟩
      dsimp only
      by_cases hpainted : j < Y + m
      · rw [hinside i j (by omega) (by omega)]
        unfold combined
        rw [hd, hs]
        rfl
      · rw [houtside i j (by omega) (by omega), hd]
        exact congrArg some
          (hrows j (by omega) hj' (by omega) i d s hXi hi' (by omega) hd hs)
    · dsimp only at hi hout ⊢
      rw [within_iff] at hout
      exact houtside i j hi (by omega)

/-- Nothing is painted, and nothing is due. -/
theorem nothing_blends (hc : canvas.Holds W H) (hp : pic.Holds w h)
    (hno : alpha = 0 ∨ W ≤ X ∨ H ≤ Y) :
    Blends ⟨W, H, canvas⟩ ⟨W, H, canvas⟩ pic X Y w h alpha := by
  rw [blends_iff hc hp rfl (Nat.zero_le _) (paints_nothing _)]
  intro j hY hj hjH i d s hXi hi hiW hd hs
  have hclear : alpha = 0 := by
    rcases hno with hclear | hout
    · exact hclear
    · omega
  rw [hclear, due_clear]

/-- What is painted is all that is due, if and only if the last row is painted or as it should
be. -/
theorem painted_rows_blend {pic_ : AVPicture} (hc : canvas.Holds W H) (hp : pic.Holds w h)
    (hY : Y < H) (hsize : pic_.y.linesize = canvas.y.linesize)
    (hpaints : Paints canvas.y.linesize ⟨X, Y, min w (W - X), painted_rows H h Y⟩
      (combined (due alpha) canvas.y pic.y X Y) canvas.y.data pic_.y.data) :
    Blends ⟨W, H, canvas⟩ ⟨W, H, pic_⟩ pic X Y w h alpha ↔
      2 ∣ min h (H - Y) ∨ RowDue canvas pic W w X Y (Y + min h (H - Y) - 1) alpha := by
  have hrows : painted_rows H h Y ≤ min h (H - Y) := by
    unfold painted_rows
    omega
  rw [blends_iff hc hp hsize hrows hpaints]
  unfold painted_rows
  constructor
  · intro hbelow
    by_cases heven : 2 ∣ min h (H - Y)
    · exact .inl heven
    · exact .inr (hbelow _ (by omega) (by omega) (by omega))
  · rintro (heven | hlast) j hj hjh hjH
    · omega
    · have hsame : j = Y + min h (H - Y) - 1 := by omega
      rw [hsame]
      exact hlast

/-- `draw_yuv` blends every pixel if and only if the intersection has an even number of rows, or
its last row is as it should be before the call. -/
theorem each_pixel_is_blended_but_for_an_odd_last_row (hc : canvas.Holds W H)
    (hp : pic.Holds w h) (X Y : Nat) (alpha : UInt8) :
    ∃ c, Canvas.draw_yuv ⟨W, H, canvas⟩ pic X Y w h alpha.toNat = .ok c ∧
      (Blends ⟨W, H, canvas⟩ c pic X Y w h alpha ↔
        2 ∣ min h (H - Y) ∨ RowDue canvas pic W w X Y (Y + min h (H - Y) - 1) alpha) := by
  by_cases hno : alpha = 0 ∨ W ≤ X ∨ H ≤ Y
  · have hblends : Blends ⟨W, H, canvas⟩ ⟨W, H, canvas⟩ pic X Y w h alpha :=
      nothing_blends hc hp hno
    refine ⟨_, draw_yuv_nothing hno, fun _ => ?_, fun _ => hblends⟩
    by_cases hrows : min h (H - Y) = 0
    · rw [hrows]
      exact .inl (Nat.dvd_zero 2)
    · have hdue := (blends_iff hc hp rfl (Nat.zero_le _) (paints_nothing _)).mp hblends
      exact .inr (hdue _ (by omega) (by omega) (by omega))
  · obtain ⟨hshown, hX, hY⟩ : alpha ≠ 0 ∧ X < W ∧ Y < H := by
      rw [not_or] at hno
      exact ⟨hno.1, by omega⟩
    obtain ⟨pic_, hdraw, hsize, hpaints⟩ := draw_yuv_paints hc hp hshown hX hY
    exact ⟨_, hdraw, painted_rows_blend hc hp hY hsize hpaints⟩

end

theorem each_pixel_is_blended_but_for_an_odd_last_row_example :
    ∃ c, Canvas.draw_yuv ⟨4, 4, yuv420p 0 4 4⟩ (yuv420p 0x10 3 3) 1 2 3 3 128 = .ok c ∧
      (Blends ⟨4, 4, yuv420p 0 4 4⟩ c (yuv420p 0x10 3 3) 1 2 3 3 128 ↔
        2 ∣ min 3 (4 - 2) ∨
          RowDue (yuv420p 0 4 4) (yuv420p 0x10 3 3) 4 3 1 2 (2 + min 3 (4 - 2) - 1) 128) :=
  each_pixel_is_blended_but_for_an_odd_last_row (yuv420p_allocates 0 4 4)
    (yuv420p_allocates 0x10 3 3) 1 2 128

/-- A picture of one pixel is not drawn. -/
theorem a_single_row_is_not_drawn : ¬ ∃ c,
    Canvas.draw_yuv ⟨4, 4, yuv420p 0 4 4⟩ (yuv420p 0x10 1 1) 0 0 1 1 255 = .ok c ∧
      Blends ⟨4, 4, yuv420p 0 4 4⟩ c (yuv420p 0x10 1 1) 0 0 1 1 255 := by
  rintro ⟨c, hdraw, hblends⟩
  have hsame : Canvas.draw_yuv ⟨4, 4, yuv420p 0 4 4⟩ (yuv420p 0x10 1 1) 0 0 1 1 255 =
      .ok ⟨4, 4, yuv420p 0 4 4⟩ := rfl
  obtain rfl : ⟨4, 4, yuv420p 0 4 4⟩ = c := by
    rw [hsame] at hdraw
    exact Except.ok.inj hdraw
  obtain ⟨d, s, v, hd, hs, hv, hdue⟩ := hblends.inside 0 0 (by decide) (by decide) rfl
  rw [hd] at hv
  have hcovered := hdue.covered rfl
  have hd' : some d = some 0 := hd.symm.trans rfl
  have hs' : some s = some 0x10 := hs.symm.trans rfl
  cases hd'
  cases hs'
  cases hv
  exact absurd hcovered (by decide)

end zonekey_mcu.blending
