-- The painter's law of the video mixer: each pixel of the canvas is that of the last picture
-- of the z-order that covers it.
import ZonekeyMcu.PictureRows
import ZonekeyMcu.Lib.Layers

open raster layers zonekey_mcu.video_mixer

namespace zonekey_mcu.canvas

/-! ## The canvas -/

/-- A size that is even, and not negative. -/
structure EvenSize (width height : Int) : Prop where
  width_nonneg : 0 ≤ width
  height_nonneg : 0 ≤ height
  width_even : 2 ∣ width
  height_even : 2 ∣ height

/-- The canvas has an even size, and memory for it. -/
structure Canvas.Sound (c : Canvas) : Prop where
  size : EvenSize c.width_ c.height_
  holds : c.pic_.Holds c.width_.toNat c.height_.toNat

/-- The pixel lies in the rectangle. -/
def within (x y width height : Int) (i j : Nat) : Bool :=
  x ≤ i ∧ i < x + width ∧ y ≤ j ∧ j < y + height

theorem within_iff {X Y w h i j : Nat} :
    within X Y w h i j = true ↔ X ≤ i ∧ i < X + w ∧ Y ≤ j ∧ j < Y + h := by
  unfold within
  rw [decide_eq_true_iff]
  omega

/-- On the canvas, the part of the picture that is left by the cuts is the whole of it. -/
theorem contains_iff_within {W H X Y w h i j : Nat} (hi : i < W) (hj : j < H) :
    Rect.contains ⟨X, Y, min w (W - X), min h (H - Y)⟩ i j ↔ within X Y w h i j = true := by
  rw [within_iff]
  unfold Rect.contains
  dsimp only
  omega

/-- The canvas `c'` has the size of `c`, and shows these luma values. -/
structure Canvas.Shows (c c' : Canvas) (luma : Nat → Nat → Option UInt8) : Prop where
  sound : c'.Sound
  width : c'.width_ = c.width_
  height : c'.height_ = c.height_
  luma : ∀ i j : Nat, i < c.width_ → j < c.height_ → c'.pic_.y.pixel i j = luma i j

/-- The cut at the right or the bottom. -/
theorem cut_right {X n W : Nat} (h : X < W) :
    cut X n W = some ((X : Int), 0, ((min n (W - X) : Nat) : Int)) := by
  unfold cut
  rw [if_pos (by omega), if_neg (by omega)]
  congr 3
  omega

theorem cut_outside {X n W : Nat} (h : W ≤ X) : cut X n W = none := by
  unfold cut
  rw [if_pos (by omega), if_pos (by omega)]

section

variable {canvas pic : AVPicture} {W H X Y w h : Nat} {alpha : UInt8}

theorem do_compiz_safe_outside (hout : W ≤ X ∨ H ≤ Y) :
    do_compiz_safe ⟨canvas, W, H⟩ ⟨pic, w, h⟩ X Y alpha = .ok canvas := by
  unfold do_compiz_safe
  dsimp only
  rcases Nat.lt_or_ge X W with hX | hX
  · rw [cut_right hX, cut_outside (by omega)]
  · rw [cut_outside hX]

theorem do_compiz_safe_inside (hX : X < W) (hY : Y < H) :
    do_compiz_safe ⟨canvas, W, H⟩ ⟨pic, w, h⟩ X Y alpha =
      do_compiz canvas ⟨X, Y⟩ pic ⟨0, 0⟩ (min w (W - X) : Nat) (min h (H - Y) : Nat) alpha := by
  unfold do_compiz_safe
  dsimp only
  rw [cut_right hX, cut_right hY]

end

/-- An opaque picture with an even number of rows on the canvas is painted over it. -/
theorem draw_opaque {canvas pic : AVPicture} {W H X Y w h : Nat} (hc : canvas.Holds W H)
    (hpic : pic.Holds w h) (heven : 2 ∣ min h (H - Y)) :
    ∃ pic_, do_compiz_safe ⟨canvas, W, H⟩ ⟨pic, w, h⟩ X Y 255 = .ok pic_ ∧ pic_.Holds W H ∧
      ∀ i j : Nat, i < W → j < H → pic_.y.pixel i j =
        if within X Y w h i j then pic.y.pixel (i - X) (j - Y) else canvas.y.pixel i j := by
  by_cases hout : W ≤ X ∨ H ≤ Y
  · refine ⟨canvas, do_compiz_safe_outside hout, hc, fun i j hi hj => ?_⟩
    rw [if_neg]
    intro hin
    have := within_iff.mp hin
    omega
  · obtain ⟨hX, hY⟩ : X < W ∧ Y < H := by omega
    obtain ⟨pic_, hok, hholds, hline, hpaints⟩ := do_compiz_paints hc hpic heven
      (by omega : X + min w (W - X) ≤ W) (by omega : Y + min h (H - Y) ≤ H)
      (Nat.min_le_left _ _) (Nat.min_le_left _ _)
    refine ⟨pic_, (do_compiz_safe_inside hX hY).trans hok, hholds, fun i j hi hj => ?_⟩
    have hstride : i < canvas.y.linesize := Nat.lt_of_lt_of_le hi hc.y.wide
    unfold Plane.pixel at hpaints ⊢
    rw [hline]
    by_cases hin : within X Y w h i j = true
    · rw [if_pos hin]
      exact hpaints.inside i j hstride ((contains_iff_within hi hj).mpr hin)
    · rw [if_neg hin]
      exact hpaints.outside i j hstride (mt (contains_iff_within hi hj).mp hin)

/-- An opaque picture is painted over the canvas where it lies on it. -/
theorem draw_yuv_shows {c : Canvas} {pic : AVPicture} {x y width height : Int} (hc : c.Sound)
    (hsize : EvenSize width height) (hx : 0 ≤ x) (hy : 0 ≤ y) (hy2 : 2 ∣ y)
    (hpic : pic.Holds width.toNat height.toNat) :
    ∃ c', c.draw_yuv pic x y width height 255 = .ok c' ∧ c.Shows c' fun i j =>
      if within x y width height i j then pic.y.pixel (i - x.toNat) (j - y.toNat)
      else c.pic_.y.pixel i j := by
  obtain ⟨X, rfl⟩ := Int.eq_ofNat_of_zero_le hx
  obtain ⟨Y, rfl⟩ := Int.eq_ofNat_of_zero_le hy
  obtain ⟨w, rfl⟩ := Int.eq_ofNat_of_zero_le hsize.width_nonneg
  obtain ⟨h, rfl⟩ := Int.eq_ofNat_of_zero_le hsize.height_nonneg
  obtain ⟨W, H, canvas⟩ := c
  obtain ⟨W, rfl⟩ := Int.eq_ofNat_of_zero_le hc.size.width_nonneg
  obtain ⟨H, rfl⟩ := Int.eq_ofNat_of_zero_le hc.size.height_nonneg
  have hh2 := hsize.height_even
  have hH2 : 2 ∣ (H : Int) := hc.size.height_even
  have hholds : canvas.Holds W H := hc.holds
  have hpic' : pic.Holds w h := hpic
  have halpha : UInt8.ofInt 255 = 255 := by decide
  obtain ⟨pic_, hdraw, hholds', hluma⟩ :=
    draw_opaque (X := X) (Y := Y) hholds hpic' (by omega : 2 ∣ min h (H - Y))
  refine ⟨⟨W, H, pic_⟩, ?_, ⟨hc.size, hholds'⟩, rfl, rfl, fun i j hi hj => ?_⟩
  · unfold Canvas.draw_yuv
    dsimp only
    rw [halpha, hdraw, ok_bind]
    rfl
  · exact hluma i j (Int.ofNat_lt.mp hi) (Int.ofNat_lt.mp hj)

theorem at_point_zero (p : Plane) : at_point p 0 (0 : Nat) = 0 := by
  unfold at_point
  simp

theorem at_point_self (p : Plane) : at_point p (0 : Nat) (0 + 0 : Nat) = 0 := by
  unfold at_point
  simp

theorem clear_shows {c : Canvas} (hc : c.Sound) :
    ∃ c', c.clear = .ok c' ∧ c.Shows c' fun _ _ => some 0x55 := by
  obtain ⟨W, H, canvas⟩ := c
  obtain ⟨W, rfl⟩ := Int.eq_ofNat_of_zero_le hc.size.width_nonneg
  obtain ⟨H, rfl⟩ := Int.eq_ofNat_of_zero_le hc.size.height_nonneg
  have hW2 : 2 ∣ (W : Int) := hc.size.width_even
  have hH2 : 2 ∣ (H : Int) := hc.size.height_even
  have hholds : canvas.Holds W H := hc.holds
  obtain ⟨a, rfl⟩ : 2 ∣ W := by omega
  obtain ⟨b, rfl⟩ : 2 ∣ H := by omega
  obtain ⟨y, hy, hysize, hypaints⟩ := fill_rows_paints 0x55 (k := 0) (m := 2 * b) hholds.y
    (Nat.le_refl _) (by omega)
  obtain ⟨u, hu, husize, hupaints⟩ := fill_rows_paints 0x80 (n := a) (k := 0) (m := b) hholds.u
    (by omega) (by omega)
  obtain ⟨v, hv, hvsize, hvpaints⟩ := fill_rows_paints 0x80 (n := a) (k := 0) (m := b) hholds.v
    (by omega) (by omega)
  rw [at_point_zero] at hy hu hv
  unfold Canvas.clear
  dsimp only
  rw [half, half, Int.toNat_natCast, Int.toNat_natCast, hy, ok_bind, hu, ok_bind, hv, ok_bind]
  refine ⟨_, rfl, ⟨hc.size, hholds.y.painted hysize hypaints, ?_, ?_⟩, rfl, rfl, ?_⟩
  · exact hholds.u.painted husize hupaints
  · exact hholds.v.painted hvsize hvpaints
  · intro i j hi hj
    dsimp only at hi hj
    have hwide := hholds.y.wide
    unfold Plane.pixel
    rw [hysize]
    refine hypaints.inside i j (by omega) ⟨Nat.zero_le _, ?_, Nat.zero_le _, ?_⟩
    · dsimp only
      omega
    · dsimp only
      omega

/-! ## The pictures -/

/-- A picture that is opaque, at an even place, with an even size and memory for it. -/
structure SavedPicture.Paintable (s : SavedPicture) : Prop where
  opaque_ : s.alpha_ = 255
  size : EvenSize s.width_ s.height_
  x_nonneg : 0 ≤ s.x_
  y_nonneg : 0 ≤ s.y_
  x_even : 2 ∣ s.x_
  y_even : 2 ∣ s.y_
  holds : s.pic_.Holds s.width_.toNat s.height_.toNat

/-- The channel shows a picture, and the pixel lies in its rectangle. -/
def SavedPicture.covers (i j : Nat) (s : SavedPicture) : Bool :=
  !s.idle_ && s.valid_ && within s.x_ s.y_ s.width_ s.height_ i j

/-- The luma value of the picture at a pixel of the canvas. -/
def SavedPicture.luma (i j : Nat) (s : SavedPicture) : Option UInt8 :=
  s.pic_.y.pixel (i - s.x_.toNat) (j - s.y_.toNat)

/-- `avpicture_alloc` gives memory for the size it is asked for. -/
def Allocates (avpicture_alloc : Int → Int → AVPicture) : Prop :=
  ∀ width height : Nat, (avpicture_alloc width height).Holds width height

section

variable {avpicture_alloc : Int → Int → AVPicture}

/-- The rows of a plane, copied into memory of their size. -/
theorem copy_rows_same {dst src : Plane} {n m : Nat} (hd : dst.Holds n m) (hs : src.Holds n m) :
    ∃ p : Plane, copy_rows src n m dst ⟨0, 0⟩ = .ok p ∧ p.Holds n m ∧
      ∀ i j, i < n → j < m → p.pixel i j = src.pixel i j := by
  obtain ⟨p, hp, hsize, hpaints⟩ := copy_rows_paints (X := 0) (Y := 0) (k := 0) (m := m) hd hs
    (by omega : 0 + n ≤ n) (by omega) (Nat.le_refl _) (by omega)
  rw [at_point_self, at_point_zero] at hp
  refine ⟨p, hp, hd.painted hsize hpaints, fun i j hi hj => ?_⟩
  have hwide := hd.wide
  have hin : Rect.contains ⟨0, 0 + 0, n, m⟩ i j := by
    unfold Rect.contains
    dsimp only
    omega
  unfold Plane.pixel at hpaints ⊢
  rw [hsize]
  exact hpaints.inside i j (by omega) hin

/-- The copy of a picture that is shown has the same pixels. -/
theorem get_pic_copies (halloc : Allocates avpicture_alloc) {s : SavedPicture}
    (hwidth : 0 ≤ s.width_) (hheight : 0 ≤ s.height_)
    (hholds : s.pic_.Holds s.width_.toNat s.height_.toNat)
    (hshown : s.idle_ = false ∧ s.valid_ = true) :
    ∃ pic, s.get_pic avpicture_alloc =
        .ok ⟨s.x_, s.y_, s.width_, s.height_, s.alpha_, pic⟩ ∧
      pic.Holds s.width_.toNat s.height_.toNat ∧
      (∀ i j, i < s.width_.toNat → j < s.height_.toNat → pic.y.pixel i j = s.pic_.y.pixel i j) ∧
      (∀ i j, i < s.width_.toNat / 2 → j < s.height_.toNat / 2 →
        pic.u.pixel i j = s.pic_.u.pixel i j) ∧
      ∀ i j, i < s.width_.toNat / 2 → j < s.height_.toNat / 2 →
        pic.v.pixel i j = s.pic_.v.pixel i j := by
  obtain ⟨w, hw⟩ := Int.eq_ofNat_of_zero_le hwidth
  obtain ⟨h, hh⟩ := Int.eq_ofNat_of_zero_le hheight
  unfold SavedPicture.get_pic
  rw [hw, hh, Int.toNat_natCast, Int.toNat_natCast] at hholds ⊢
  have hroom := halloc w h
  obtain ⟨y, hy, hyholds, hysame⟩ := copy_rows_same hroom.y hholds.y
  obtain ⟨u, hu, huholds, husame⟩ := copy_rows_same hroom.u hholds.u
  obtain ⟨v, hv, hvholds, hvsame⟩ := copy_rows_same hroom.v hholds.v
  refine ⟨⟨y, u, v⟩, ?_, ⟨hyholds, huholds, hvholds⟩, hysame, husame, hvsame⟩
  rw [if_neg (by rw [hshown.1, hshown.2]; decide)]
  dsimp only
  rw [tdiv_two, tdiv_two, Int.toNat_natCast, hy, ok_bind, hu, ok_bind, hv, ok_bind]
  rfl

theorem Canvas.Shows.trans {c c₁ c₂ : Canvas} {luma luma' : Nat → Nat → Option UInt8}
    (h : c.Shows c₁ luma) (h' : c₁.Shows c₂ luma') : c.Shows c₂ luma' := by
  refine ⟨h'.sound, h'.width.trans h.width, h'.height.trans h.height, fun i j hi hj => ?_⟩
  exact h'.luma i j (by rw [h.width]; exact hi) (by rw [h.height]; exact hj)

theorem Canvas.Shows.congr {c c' : Canvas} {luma luma' : Nat → Nat → Option UInt8}
    (h : c.Shows c' luma)
    (heq : ∀ i j : Nat, i < c.width_ → j < c.height_ → luma i j = luma' i j) :
    c.Shows c' luma' :=
  ⟨h.sound, h.width, h.height, fun i j hi hj => (h.luma i j hi hj).trans (heq i j hi hj)⟩

theorem within_size {x y width height : Int} {i j : Nat} (hx : 0 ≤ x) (hy : 0 ≤ y)
    (h : within x y width height i j = true) :
    0 < width ∧ 0 < height ∧ ((i - x.toNat : Nat) : Int) < width ∧
      ((j - y.toNat : Nat) : Int) < height := by
  unfold within at h
  rw [decide_eq_true_iff] at h
  omega

/-- One channel of the z-order: it is painted over the canvas, where it shows a picture. -/
theorem draw_one (halloc : Allocates avpicture_alloc) {s : SavedPicture} {c : Canvas}
    (hc : c.Sound) (hs : s.idle_ = false → s.valid_ = true → s.Paintable) :
    ∃ pic, s.get_pic avpicture_alloc = .ok pic ∧
      ((pic.width > 0 ∧ pic.height > 0) ∧ (∃ c',
          c.draw_yuv pic.pic pic.x pic.y pic.width pic.height pic.alpha = .ok c' ∧
          c.Shows c' fun i j => if s.covers i j then s.luma i j else c.pic_.y.pixel i j) ∨
        ¬ (pic.width > 0 ∧ pic.height > 0) ∧ ∀ i j, s.covers i j = false) := by
  by_cases hshown : s.idle_ = false ∧ s.valid_ = true
  · have hpaint := hs hshown.1 hshown.2
    have hcovers : ∀ i j, s.covers i j = within s.x_ s.y_ s.width_ s.height_ i j := by
      intro i j
      unfold SavedPicture.covers
      rw [hshown.1, hshown.2]
      rfl
    obtain ⟨pic, hget, hpic, hsame, -⟩ := get_pic_copies halloc hpaint.size.width_nonneg
      hpaint.size.height_nonneg hpaint.holds hshown
    refine ⟨_, hget, ?_⟩
    dsimp only
    by_cases hsize : s.width_ > 0 ∧ s.height_ > 0
    · left
      refine ⟨hsize, ?_⟩
      obtain ⟨c', hdraw, hshows⟩ := draw_yuv_shows hc hpaint.size hpaint.x_nonneg
        hpaint.y_nonneg hpaint.y_even hpic
      rw [hpaint.opaque_]
      refine ⟨c', hdraw, hshows.congr fun i j _ _ => ?_⟩
      rw [hcovers]
      by_cases hin : within s.x_ s.y_ s.width_ s.height_ i j = true
      · obtain ⟨-, -, hi, hj⟩ := within_size hpaint.x_nonneg hpaint.y_nonneg hin
        rw [if_pos hin, if_pos hin, hsame _ _ (by omega) (by omega)]
        rfl
      · rw [if_neg hin, if_neg hin]
    · right
      refine ⟨hsize, fun i j => ?_⟩
      rw [hcovers, Bool.eq_false_iff]
      intro hin
      obtain ⟨hw, hh, -, -⟩ := within_size hpaint.x_nonneg hpaint.y_nonneg hin
      exact hsize ⟨hw, hh⟩
  · refine ⟨_, if_pos ?_, .inr ⟨fun h => absurd h.1 (Int.lt_irrefl 0), fun i j => ?_⟩⟩
    · cases hidle : s.idle_
      · exact .inr fun hvalid => hshown ⟨hidle, hvalid⟩
      · exact .inl rfl
    · unfold SavedPicture.covers
      cases hidle : s.idle_
      · cases hvalid : s.valid_
        · rfl
        · exact absurd ⟨hidle, hvalid⟩ hshown
      · rfl

/-- The pictures of the channels in a z-order. -/
def pictures (channels_ : Nat → Option SavedPicture) (ids : List Int) : List SavedPicture :=
  ids.filterMap fun z => channels_ z.toNat

/-- The loop of `one_step` paints the pictures of the z-order over each other. -/
theorem draw_loop_shows (halloc : Allocates avpicture_alloc)
    {channels_ : Nat → Option SavedPicture} {ids : List Int} (rest : List Int)
    (hids : ∀ z ∈ ids, 0 ≤ z ∧ z ≤ MAX_CHANNELS)
    (hpics : ∀ s ∈ pictures channels_ ids, s.idle_ = false → s.valid_ = true → s.Paintable)
    (active : Nat) {c : Canvas} (hc : c.Sound) :
    ∃ c', draw_loop avpicture_alloc channels_ (ids ++ -1 :: rest) active c =
        .ok (active + (pictures channels_ ids).length, c') ∧
      c.Shows c' fun i j => seen (SavedPicture.covers i j) (SavedPicture.luma i j)
        (pictures channels_ ids) (c.pic_.y.pixel i j) := by
  induction ids generalizing active c with
  | nil => exact ⟨c, rfl, hc, rfl, rfl, fun _ _ _ _ => rfl⟩
  | cons z ids ih =>
    have hz := hids z List.mem_cons_self
    have hids' : ∀ z ∈ ids, 0 ≤ z ∧ z ≤ MAX_CHANNELS :=
      fun z hz => hids z (List.mem_cons_of_mem _ hz)
    rw [List.cons_append]
    unfold draw_loop
    rw [if_neg (by omega), if_neg (by omega)]
    cases hch : channels_ z.toNat with
    | none =>
      have hnone : pictures channels_ (z :: ids) = pictures channels_ ids := by
        unfold pictures
        exact List.filterMap_cons_none hch
      rw [hnone] at hpics ⊢
      exact ih hids' hpics active hc
    | some s =>
      have hsome : pictures channels_ (z :: ids) = s :: pictures channels_ ids := by
        unfold pictures
        exact List.filterMap_cons_some hch
      rw [hsome] at hpics ⊢
      have hpics' := fun s hs => hpics s (List.mem_cons_of_mem _ hs)
      have hcount : active + (s :: pictures channels_ ids).length =
          active + 1 + (pictures channels_ ids).length := by
        rw [List.length_cons]
        omega
      rw [hcount]
      dsimp only
      obtain ⟨pic, hget, hdraw⟩ := draw_one (c := c) halloc hc (hpics s List.mem_cons_self)
      rw [hget, ok_bind]
      rcases hdraw with ⟨hsize, c₁, hdraw, hshows⟩ | ⟨hsize, hno⟩
      · rw [if_pos hsize, hdraw, ok_bind]
        obtain ⟨c', hloop, hshows'⟩ := ih hids' hpics' (active + 1) hshows.sound
        refine ⟨c', hloop, (hshows.trans hshows').congr fun i j hi hj => ?_⟩
        rw [seen_cons, hshows.luma i j hi hj]
      · rw [if_neg hsize]
        obtain ⟨c', hloop, hshows'⟩ := ih hids' hpics' (active + 1) hc
        refine ⟨c', hloop, hshows'.congr fun i j _ _ => ?_⟩
        rw [seen_cons_of_not _ _ (hno i j)]

end

/-! ## The law -/

/-- After the draw loop each luma pixel of the canvas is that of the last picture in the
z-order that covers it, or the clear colour where none does. -/
theorem each_pixel_is_of_the_top_picture {avpicture_alloc : Int → Int → AVPicture}
    (halloc : Allocates avpicture_alloc) {s : Scene} {ids rest : List Int}
    (hz : s.zorder_ = ids ++ -1 :: rest) (hids : ∀ z ∈ ids, 0 ≤ z ∧ z ≤ MAX_CHANNELS)
    (hc : s.canvas_.Sound)
    (hpics : ∀ p ∈ pictures s.channels_ ids, p.idle_ = false → p.valid_ = true → p.Paintable) :
    ∃ canvas, s.one_step avpicture_alloc = .ok ((pictures s.channels_ ids).length, canvas) ∧
      ∀ i j : Nat, i < s.canvas_.width_ → j < s.canvas_.height_ →
        canvas.pic_.y.pixel i j = seen (SavedPicture.covers i j) (SavedPicture.luma i j)
          (pictures s.channels_ ids) (some 0x55) := by
  obtain ⟨c, hclear, hground⟩ := clear_shows hc
  obtain ⟨canvas, hloop, hshows⟩ := draw_loop_shows halloc rest hids hpics 0 hground.sound
  refine ⟨canvas, ?_, fun i j hi hj => ?_⟩
  · unfold Scene.one_step
    rw [hclear, ok_bind, hz, hloop, Nat.zero_add]
  · rw [(hground.trans hshows).luma i j hi hj, hground.luma i j hi hj]

/-- The planes of `PIX_FMT_YUV420P` without gaps between the rows, each byte the same. -/
def yuv420p (b : UInt8) (width height : Int) : AVPicture :=
  let w := width.toNat
  let h := height.toNat
  let chroma : Plane := ⟨List.replicate ((h + 1) / 2 * ((w + 1) / 2)) b, (w + 1) / 2⟩
  ⟨⟨List.replicate (h * w) b, w⟩, chroma, chroma⟩

theorem yuv420p_allocates (b : UInt8) : Allocates (yuv420p b) := by
  intro w h
  have hchroma : h / 2 * ((w + 1) / 2) ≤ (h + 1) / 2 * ((w + 1) / 2) :=
    Nat.mul_le_mul_right _ (by omega)
  refine ⟨⟨Nat.le_refl _, ?_⟩, ⟨?_, ?_⟩, ⟨?_, ?_⟩⟩
  · exact Nat.le_of_eq List.length_replicate.symm
  · exact (by omega : w / 2 ≤ (w + 1) / 2)
  · exact hchroma.trans (Nat.le_of_eq List.length_replicate.symm)
  · exact (by omega : w / 2 ≤ (w + 1) / 2)
  · exact hchroma.trans (Nat.le_of_eq List.length_replicate.symm)

/-- A canvas of 4x4, with a picture in its lower right corner that sticks out, and a small
one over it. -/
def two_pictures : Scene where
  canvas_ := ⟨4, 4, yuv420p 0 4 4⟩
  channels_ i :=
    if i = 0 then some ⟨2, 2, 2, 2, 255, yuv420p 0x10 2 2, false, true⟩
    else if i = 1 then some ⟨2, 2, 4, 4, 255, yuv420p 0x20 4 4, false, true⟩
    else none
  zorder_ := [1, 0] ++ -1 :: List.replicate 18 (-1)

theorem each_pixel_is_of_the_top_picture_example : ∃ canvas,
    two_pictures.one_step (yuv420p 0) = .ok (2, canvas) ∧
      ∀ i j : Nat, i < (4 : Int) → j < (4 : Int) →
        canvas.pic_.y.pixel i j = seen (SavedPicture.covers i j) (SavedPicture.luma i j)
          (pictures two_pictures.channels_ [1, 0]) (some 0x55) := by
  refine each_pixel_is_of_the_top_picture (s := two_pictures) (yuv420p_allocates 0) rfl
    (by decide) ⟨⟨by decide, by decide, by decide, by decide⟩, yuv420p_allocates 0 4 4⟩ ?_
  intro p hp _ _
  have hpics : pictures two_pictures.channels_ [1, 0] =
      [⟨2, 2, 4, 4, 255, yuv420p 0x20 4 4, false, true⟩,
        ⟨2, 2, 2, 2, 255, yuv420p 0x10 2 2, false, true⟩] := rfl
  rw [hpics] at hp
  simp only [List.mem_cons, List.not_mem_nil, or_false] at hp
  rcases hp with rfl | rfl
  · exact ⟨rfl, ⟨by decide, by decide, by decide, by decide⟩, by decide, by decide, by decide,
      by decide, yuv420p_allocates 0x20 4 4⟩
  · exact ⟨rfl, ⟨by decide, by decide, by decide, by decide⟩, by decide, by decide, by decide,
      by decide, yuv420p_allocates 0x10 2 2⟩

end zonekey_mcu.canvas
