-- The rows of a picture: what the loops over the rows of a plane, and of the three planes, paint
-- when each row is combined with the one that it is drawn over.
import ZonekeyMcu.Canvas
import Mathlib.Tactic.Ring

open raster

namespace zonekey_mcu.canvas

/-! ## One plane -/

/-- The plane has memory for this size. -/
structure Plane.Holds (p : Plane) (width height : Nat) : Prop where
  wide : width ≤ p.linesize
  long : height * p.linesize ≤ p.data.length

def Plane.pixel (p : Plane) (x y : Nat) : Option UInt8 := raster.pixel p.data p.linesize x y

section

variable {dst src : Plane} {dw dh sw sh X Y n k : Nat}

theorem row_le {p : Plane} {width height y : Nat} (h : p.Holds width height) (hy : y < height) :
    (y + 1) * p.linesize ≤ p.data.length :=
  Nat.le_trans (Nat.mul_le_mul_right _ hy) h.long

theorem at_point_nat (p : Plane) (x y : Nat) : at_point p x y = (y * p.linesize + x : Nat) := by
  unfold at_point
  push_cast
  rfl

theorem pixel_some {p : Plane} {width height i j : Nat} (h : p.Holds width height)
    (hi : i < width) (hj : j < height) : ∃ v, p.pixel i j = some v := by
  have hwide := h.wide
  have hlong := row_le h hj
  rw [Nat.succ_mul] at hlong
  have hin : j * p.linesize + i < p.data.length := by omega
  exact ⟨p.data[j * p.linesize + i], List.getElem?_eq_getElem hin⟩

/-- What is done with one row: a place in the target, one in the source, and the length. -/
abbrev RowCall := List UInt8 → Int → List UInt8 → Int → Int → Except Fault (List UInt8)

/-- Each value of the target is combined with that of the source. -/
def Combines (row : RowCall) (f : UInt8 → UInt8 → UInt8) : Prop :=
  ∀ (pd ps : List UInt8) (d s n : Nat), d + n ≤ pd.length → s + n ≤ ps.length →
    row pd d ps s n = .ok (overwrite pd d (List.zipWith f (piece pd d n) (piece ps s n)))

theorem zipWith_second {xs ys : List UInt8} (h : xs.length = ys.length) :
    List.zipWith (fun _ s => s) xs ys = ys := by
  rw [← List.map_uncurry_zip_eq_zipWith]
  exact List.map_snd_zip (Nat.le_of_eq h.symm)

theorem memcpy_combines : Combines memcpy fun _ s => s := by
  intro pd ps d s n hd hs
  unfold memcpy
  rw [if_pos (by omega), zipWith_second (by rw [length_piece hd, length_piece hs])]
  simp only [Int.toNat_natCast, piece]

theorem do_pixels_combines (alpha : UInt8) : Combines (do_pixels alpha) (do_pixel alpha) := by
  intro pd ps d s n hd hs
  unfold do_pixels
  by_cases hn : n = 0
  · have hnothing : piece pd d n = [] := by
      rw [hn]
      exact List.take_zero
    rw [if_pos (by omega), hnothing, List.zipWith_nil_left, overwrite_nil]
  · rw [if_neg (by omega), if_pos (by omega)]
    simp only [Int.toNat_natCast, piece]

theorem Combines.keeps_length {row : RowCall} {f : UInt8 → UInt8 → UInt8} (h : Combines row f)
    {pd ps : List UInt8} {d s n : Nat}
    (hd : d + n ≤ pd.length) (hs : s + n ≤ ps.length) :
    ∃ data, row pd d ps s n = .ok data ∧ data.length = pd.length := by
  have hlen : (List.zipWith f (piece pd d n) (piece ps s n)).length = n := by
    rw [List.length_zipWith, length_piece hd, length_piece hs, Nat.min_self]
  refine ⟨_, h pd ps d s n hd hs, length_overwrite ?_⟩
  rw [hlen]
  exact hd

/-- The source at its place on the target, combined with what is there. -/
def combined (f : UInt8 → UInt8 → UInt8) (dst src : Plane) (X Y x y : Nat) : Option UInt8 :=
  Option.map₂ f (dst.pixel x y) (src.pixel (x - X) (y - Y))

section

variable {row : RowCall} {f : UInt8 → UInt8 → UInt8}

/-- Row `k` of the source, combined with the target at its place. -/
theorem row_paints (hcombines : Combines row f) (hd : dst.Holds dw dh) (hs : src.Holds sw sh)
    (hX : X + n ≤ dw) (hY : Y + k < dh) (hn : n ≤ sw) (hk : k < sh) :
    ∃ data, row dst.data (at_point dst X (Y + k : Nat)) src.data (at_point src 0 k) n =
        .ok data ∧
      Paints dst.linesize ⟨X, Y + k, n, 1⟩ (combined f dst src X Y) dst.data data := by
  have hd' := row_le hd hY
  have hs' := row_le hs hk
  have hwide := hd.wide
  have hswide := hs.wide
  have hspt : at_point src 0 k = (k * src.linesize : Nat) := at_point_nat src 0 k
  have hdfits : (Y + k) * dst.linesize + X + n ≤ dst.data.length := by
    rw [Nat.succ_mul] at hd'
    omega
  have hsfits : k * src.linesize + n ≤ src.data.length := by
    rw [Nat.succ_mul] at hs'
    omega
  obtain ⟨values, hvalues⟩ : ∃ values, values = List.zipWith f
      (piece dst.data ((Y + k) * dst.linesize + X) n) (piece src.data (k * src.linesize) n) :=
    ⟨_, rfl⟩
  have hlen : values.length = n := by
    rw [hvalues, List.length_zipWith, length_piece hdfits, length_piece hsfits, Nat.min_self]
  refine ⟨overwrite dst.data ((Y + k) * dst.linesize + X) values, ?_, ?_⟩
  · rw [at_point_nat, hspt, hvalues]
    exact hcombines _ _ _ _ _ hdfits hsfits
  · have hsource : ∀ i, i < values.length →
        values[i]? = combined f dst src X Y (X + i) (Y + k) := by
      intro i hi
      rw [hlen] at hi
      have hdi : dst.pixel (X + i) (Y + k) =
          (piece dst.data ((Y + k) * dst.linesize + X) n)[i]? := by
        rw [getElem?_piece _ hi, Nat.add_assoc]
        rfl
      have hsi : src.pixel i k = (piece src.data (k * src.linesize) n)[i]? :=
        (getElem?_piece _ hi).symm
      unfold combined
      rw [Nat.add_sub_cancel_left, Nat.add_sub_cancel_left, hdi, hsi, hvalues]
      rw [List.getElem?_zipWith']
      cases (piece dst.data ((Y + k) * dst.linesize + X) n)[i]? <;> rfl
    have hfits : X + values.length ≤ dst.linesize := by omega
    have hpaints := overwrite_paints (combined f dst src X Y) hfits hd' hsource
    rwa [hlen] at hpaints

end

theorem Plane.Holds.painted {p : Plane} {r : Rect} {source : Nat → Nat → Option UInt8}
    (h : dst.Holds dw dh) (hsize : p.linesize = dst.linesize)
    (hp : Paints dst.linesize r source dst.data p.data) : p.Holds dw dh := by
  refine ⟨?_, ?_⟩
  · rw [hsize]
    exact h.wide
  · rw [hsize, hp.length_eq]
    exact h.long

theorem next_at_point {p q : Plane} (x y : Nat) :
    at_point p x y + p.linesize = at_point p x (y + 1 : Nat) ∧
      at_point q 0 y + q.linesize = at_point q 0 (y + 1 : Nat) := by
  unfold at_point
  push_cast
  constructor <;> ring

/-- A row of one value. -/
theorem memset_paints (b : UInt8) (hd : dst.Holds dw dh) (hn : n ≤ dw) (hk : k < dh) :
    ∃ data, memcpy dst.data (at_point dst 0 k) (List.replicate (n : Int).toNat b) 0 n =
        .ok data ∧
      Paints dst.linesize ⟨0, k, n, 1⟩ (fun _ _ => some b) dst.data data := by
  have hd' := row_le hd hk
  have hwide := hd.wide
  have hpt : at_point dst 0 k = (k * dst.linesize + 0 : Nat) := at_point_nat dst 0 k
  have hrow : ((List.replicate (n : Int).toNat b).drop (0 : Int).toNat).take (n : Int).toNat =
      List.replicate n b := by
    rw [Int.toNat_natCast, Int.toNat_zero, List.drop_zero, List.take_replicate, Nat.min_self]
  refine ⟨overwrite dst.data (k * dst.linesize + 0) (List.replicate n b), ?_, ?_⟩
  · unfold memcpy
    rw [hrow, hpt, if_pos]
    · simp only [Int.toNat_natCast]
    · rw [Nat.succ_mul] at hd'
      rw [Int.toNat_natCast, List.length_replicate]
      refine ⟨?_, ?_, ?_, ?_, ?_⟩ <;> omega
  · have hsource : ∀ i, i < (List.replicate n b).length → (List.replicate n b)[i]? = some b := by
      intro i hi
      rw [List.length_replicate] at hi
      rw [List.getElem?_replicate, if_pos hi]
    have hfits : 0 + (List.replicate n b).length ≤ dst.linesize := by
      rw [List.length_replicate]
      omega
    have hpaints := overwrite_paints (fun _ _ => some b) hfits hd' hsource
    rwa [List.length_replicate] at hpaints

theorem fill_rows_paints (b : UInt8) {m : Nat} (hd : dst.Holds dw dh) (hn : n ≤ dw)
    (hk : k + m ≤ dh) :
    ∃ p : Plane, fill_rows b n m dst (at_point dst 0 k) = .ok p ∧ p.linesize = dst.linesize ∧
      Paints dst.linesize ⟨0, k, n, m⟩ (fun _ _ => some b) dst.data p.data := by
  induction m generalizing dst k with
  | zero => exact ⟨dst, rfl, rfl, paints_nothing _⟩
  | succ m ih =>
    obtain ⟨data, hrow, hpaints⟩ := memset_paints b hd hn (by omega : k < dh)
    have hpainted : Plane.Holds ⟨data, dst.linesize⟩ dw dh := hd.painted rfl hpaints
    obtain ⟨p, hrest, hsize, hbelow⟩ := ih (k := k + 1) hpainted (by omega)
    refine ⟨p, ?_, hsize, ?_⟩
    · unfold fill_rows
      rw [hrow, ok_bind, (next_at_point (p := dst) (q := dst) 0 k).2]
      exact hrest
    · rw [Nat.add_comm m]
      exact hpaints.below hbelow

section

variable {row : RowCall} {f : UInt8 → UInt8 → UInt8}

/-- The loop of `do_compiz` over the rows of one plane. -/
def each_row (row : RowCall) (src : Plane) (width : Int) :
    Nat → Plane → Pointers → Except Fault Plane
  | 0, dst, _ => .ok dst
  | n + 1, dst, p => do
    let data ← row dst.data p.d src.data p.s width
    each_row row src width n ⟨data, dst.linesize⟩ (p.next dst src)

/-- The rows of the source from `k` on, below each other. -/
theorem each_row_paints (hcombines : Combines row f) {m : Nat} (hd : dst.Holds dw dh)
    (hs : src.Holds sw sh) (hX : X + n ≤ dw) (hY : Y + k + m ≤ dh) (hn : n ≤ sw)
    (hk : k + m ≤ sh) :
    ∃ p : Plane, each_row row src n m dst ⟨at_point dst X (Y + k : Nat), at_point src 0 k⟩ =
        .ok p ∧
      p.linesize = dst.linesize ∧
      Paints dst.linesize ⟨X, Y + k, n, m⟩ (combined f dst src X Y) dst.data p.data := by
  induction m generalizing dst k with
  | zero => exact ⟨dst, rfl, rfl, paints_nothing _⟩
  | succ m ih =>
    obtain ⟨data, hrow, hpaints⟩ :=
      row_paints hcombines hd hs hX (by omega : Y + k < dh) hn (by omega)
    have hpainted : Plane.Holds ⟨data, dst.linesize⟩ dw dh := hd.painted rfl hpaints
    obtain ⟨p, hrest, hsize, hbelow⟩ := ih (k := k + 1) hpainted (by omega) (by omega)
    -- The rows below are still those of the target.
    have hsame : ∀ x y, x < dst.linesize → Rect.contains ⟨X, Y + (k + 1), n, m⟩ x y →
        combined f ⟨data, dst.linesize⟩ src X Y x y = combined f dst src X Y x y := by
      intro x y hx hin
      have hout : ¬ Rect.contains ⟨X, Y + k, n, 1⟩ x y := by
        unfold Rect.contains at hin ⊢
        dsimp only at hin ⊢
        omega
      have hold : Plane.pixel ⟨data, dst.linesize⟩ x y = dst.pixel x y :=
        hpaints.outside x y hx hout
      unfold combined
      rw [hold]
    refine ⟨p, ?_, hsize, ?_⟩
    · unfold each_row Pointers.next
      dsimp only
      rw [hrow, ok_bind, (next_at_point (p := dst) (q := src) X (Y + k)).1,
        (next_at_point (p := dst) (q := src) X k).2]
      exact hrest
    · rw [Nat.add_comm m]
      exact hpaints.below (hbelow.congr hsame)

end

theorem copy_rows_each (src : Plane) (width : Int) (m : Nat) (dst : Plane) (p : Pointers) :
    copy_rows src width m dst p = each_row memcpy src width m dst p := by
  induction m generalizing dst p with
  | zero => rfl
  | succ m ih =>
    unfold copy_rows each_row
    simp only [ih]

/-- In the rectangle that is copied there are only values of the source. -/
theorem combined_second (hd : dst.Holds dw dh) {x y : Nat} (hx : x < dw) (hy : y < dh) :
    combined (fun _ s => s) dst src X Y x y = src.pixel (x - X) (y - Y) := by
  obtain ⟨v, hv⟩ := pixel_some hd hx hy
  unfold combined
  rw [hv]
  cases src.pixel (x - X) (y - Y) <;> rfl

/-- The rows of the source from `k` on, painted below each other. -/
theorem copy_rows_paints {m : Nat} (hd : dst.Holds dw dh) (hs : src.Holds sw sh)
    (hX : X + n ≤ dw) (hY : Y + k + m ≤ dh) (hn : n ≤ sw) (hk : k + m ≤ sh) :
    ∃ p : Plane, copy_rows src n m dst ⟨at_point dst X (Y + k : Nat), at_point src 0 k⟩ = .ok p ∧
      p.linesize = dst.linesize ∧
      Paints dst.linesize ⟨X, Y + k, n, m⟩ (fun x y => src.pixel (x - X) (y - Y)) dst.data
        p.data := by
  obtain ⟨p, hcopy, hsize, hpaints⟩ := each_row_paints memcpy_combines hd hs hX hY hn hk
  refine ⟨p, (copy_rows_each _ _ _ _ _).trans hcopy, hsize, hpaints.congr ?_⟩
  rintro x y hx ⟨-, hright, -, hbottom⟩
  dsimp only at hright hbottom
  exact combined_second hd (by omega) (by omega)

end

/-! ## Three planes -/

section

variable {row : RowCall} {src : AVPicture} {width : Int}

/-- The loops of `do_compiz` go through each plane on its own. -/
theorem compiz_rows_planes {n : Nat} {dst : AVPicture} {y u v : Plane} {py pu pv : Pointers}
    (hy : each_row row src.y width (2 * n) dst.y py = .ok y)
    (hu : each_row row src.u (width.tdiv 2) n dst.u pu = .ok u)
    (hv : each_row row src.v (width.tdiv 2) n dst.v pv = .ok v) :
    compiz_rows row src width n dst py pu pv = .ok ⟨y, u, v⟩ := by
  induction n generalizing dst py pu pv with
  | zero =>
    cases hy
    cases hu
    cases hv
    rfl
  | succ n ih =>
    rw [Nat.mul_succ] at hy
    obtain ⟨y₁, hy₁, hy⟩ := bind_ok hy
    obtain ⟨y₂, hy₂, hy⟩ := bind_ok hy
    obtain ⟨u₁, hu₁, hu⟩ := bind_ok hu
    obtain ⟨v₁, hv₁, hv⟩ := bind_ok hv
    unfold compiz_rows
    rw [hy₁, ok_bind]
    dsimp only
    rw [hy₂, ok_bind, hu₁, ok_bind, hv₁, ok_bind]
    exact ih hy hu hv

end

/-- The planes have memory for a picture of this size. -/
structure AVPicture.Holds (p : AVPicture) (width height : Nat) : Prop where
  y : p.y.Holds width height
  u : p.u.Holds (width / 2) (height / 2)
  v : p.v.Holds (width / 2) (height / 2)

theorem tdiv_two (a : Nat) : (a : Int).tdiv 2 = (a / 2 : Nat) := (Int.ofNat_tdiv a 2).symm

theorem half (a : Nat) : ((2 * a : Nat) : Int).tdiv 2 = a := by
  rw [tdiv_two]
  omega

section

variable {row : RowCall} {f : UInt8 → UInt8 → UInt8} {dst src : AVPicture} {dw dh sw sh : Nat}

/-- The loop of `do_compiz`, from the start of a rectangle that fits. Of an odd number of rows
the last one is left out. -/
theorem compiz_rows_paints (hcombines : Combines row f) {X Y w h : Nat} (hd : dst.Holds dw dh)
    (hs : src.Holds sw sh) (hright : X + w ≤ dw) (hbottom : Y + h ≤ dh) (hsw : w ≤ sw)
    (hsh : h ≤ sh) :
    ∃ pic, compiz_rows row src w (h / 2) dst ⟨at_point dst.y X Y, at_point src.y 0 0⟩
        ⟨at_point dst.u (X / 2 : Nat) (Y / 2 : Nat), at_point src.u 0 0⟩
        ⟨at_point dst.v (X / 2 : Nat) (Y / 2 : Nat), at_point src.v 0 0⟩ = .ok pic ∧
      pic.Holds dw dh ∧ pic.y.linesize = dst.y.linesize ∧
      Paints dst.y.linesize ⟨X, Y, w, 2 * (h / 2)⟩ (combined f dst.y src.y X Y) dst.y.data
        pic.y.data := by
  obtain ⟨y, hy, hysize, hypaints⟩ := each_row_paints hcombines (Y := Y) (k := 0) (m := 2 * (h / 2))
    hd.y hs.y hright (by omega) hsw (by omega)
  obtain ⟨u, hu, husize, hupaints⟩ := each_row_paints hcombines (X := X / 2) (Y := Y / 2)
    (n := w / 2) (k := 0) (m := h / 2) hd.u hs.u (by omega) (by omega) (by omega) (by omega)
  obtain ⟨v, hv, hvsize, hvpaints⟩ := each_row_paints hcombines (X := X / 2) (Y := Y / 2)
    (n := w / 2) (k := 0) (m := h / 2) hd.v hs.v (by omega) (by omega) (by omega) (by omega)
  refine ⟨⟨y, u, v⟩, compiz_rows_planes hy ?_ ?_, ⟨hd.y.painted hysize hypaints,
    hd.u.painted husize hupaints, hd.v.painted hvsize hvpaints⟩, hysize, hypaints⟩
  · rw [tdiv_two]
    exact hu
  · rw [tdiv_two]
    exact hv

/-- An opaque picture at an even place is painted there. -/
theorem do_compiz_paints {X Y w h : Nat} (hd : dst.Holds dw dh) (hs : src.Holds sw sh)
    (hh : 2 ∣ h) (hright : X + w ≤ dw) (hbottom : Y + h ≤ dh) (hsw : w ≤ sw) (hsh : h ≤ sh) :
    ∃ pic, do_compiz dst ⟨X, Y⟩ src ⟨0, 0⟩ w h 255 = .ok pic ∧ pic.Holds dw dh ∧
      pic.y.linesize = dst.y.linesize ∧
      Paints dst.y.linesize ⟨X, Y, w, h⟩ (fun x y => src.y.pixel (x - X) (y - Y)) dst.y.data
        pic.y.data := by
  obtain ⟨pic, hrows, hholds, hsize, hpaints⟩ :=
    compiz_rows_paints memcpy_combines hd hs hright hbottom hsw hsh
  rw [Nat.mul_div_cancel' hh] at hpaints
  refine ⟨pic, ?_, hholds, hsize, hpaints.congr ?_⟩
  · unfold do_compiz
    dsimp only
    rw [if_pos rfl, tdiv_two, tdiv_two, tdiv_two, Int.toNat_natCast]
    exact hrows
  · rintro x y hx ⟨-, hright', -, hbottom'⟩
    dsimp only at hright' hbottom'
    exact combined_second hd.y (by omega) (by omega)

end

end zonekey_mcu.canvas
