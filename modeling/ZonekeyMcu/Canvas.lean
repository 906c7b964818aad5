-- The canvas of the video mixer: the pictures of the channels are painted onto it in their
-- z-order, each at its place, and cut off at the right and the bottom.
import ZonekeyMcu.VideoMixer
import ZonekeyMcu.Lib.Raster

open raster zonekey_mcu.video_mixer

namespace zonekey_mcu.canvas

/-! ## Pictures -/

/-- One of `data[i]` with its `linesize[i]`. -/
structure Plane where
  data : List UInt8
  linesize : Nat

/-- The three planes of a picture in YUV420P. -/
structure AVPicture where
  y : Plane
  u : Plane
  v : Plane

structure YUV where
  pic : AVPicture
  width : Int
  height : Int

structure POINT where
  x : Int
  y : Int

/-- A copy between two planes. A negative length is a huge one. -/
def memcpy (pd : List UInt8) (d : Int) (ps : List UInt8) (s n : Int) :
    Except Fault (List UInt8) :=
  if 0 ≤ d ∧ 0 ≤ s ∧ 0 ≤ n ∧ d + n ≤ pd.length ∧ s + n ≤ ps.length then
    .ok (overwrite pd d.toNat ((ps.drop s.toNat).take n.toNat))
  else .error .outOfBounds

/-- `(*pd * (256 - alpha) + *ps * alpha) >> 8`. -/
def do_pixel (alpha pd ps : UInt8) : UInt8 :=
  UInt8.ofNat ((pd.toNat * (256 - alpha.toNat) + ps.toNat * alpha.toNat) / 256)

/-- The loop of `do_pixel` over a row. -/
def do_pixels (alpha : UInt8) (pd : List UInt8) (d : Int) (ps : List UInt8) (s n : Int) :
    Except Fault (List UInt8) :=
  if n ≤ 0 then .ok pd
  else if 0 ≤ d ∧ 0 ≤ s ∧ d + n ≤ pd.length ∧ s + n ≤ ps.length then
    .ok (overwrite pd d.toNat (List.zipWith (do_pixel alpha)
      ((pd.drop d.toNat).take n.toNat) ((ps.drop s.toNat).take n.toNat)))
  else .error .outOfBounds

/-! ## Painting one picture -/

/-- The pointers into a plane of the target and into that of the source. -/
structure Pointers where
  d : Int
  s : Int

/-- The pointers after a row. -/
def Pointers.next (p : Pointers) (dst src : Plane) : Pointers :=
  ⟨p.d + dst.linesize, p.s + src.linesize⟩

/-- The two loops of `do_compiz` over the rows, which differ in what they do with a row. Two
rows of Y go with one row of U and one of V. -/
def compiz_rows (row : List UInt8 → Int → List UInt8 → Int → Int → Except Fault (List UInt8))
    (src : AVPicture) (width : Int) :
    Nat → AVPicture → Pointers → Pointers → Pointers → Except Fault AVPicture
  | 0, dst, _, _, _ => .ok dst
  | n + 1, dst, py, pu, pv => do
    let y ← row dst.y.data py.d src.y.data py.s width
    let py := py.next dst.y src.y
    let y ← row y py.d src.y.data py.s width
    let py := py.next dst.y src.y
    let u ← row dst.u.data pu.d src.u.data pu.s (width.tdiv 2)
    let v ← row dst.v.data pv.d src.v.data pv.s (width.tdiv 2)
    compiz_rows row src width n
      ⟨⟨y, dst.y.linesize⟩, ⟨u, dst.u.linesize⟩, ⟨v, dst.v.linesize⟩⟩
      py (pu.next dst.u src.u) (pv.next dst.v src.v)

/-- `&data[pt.y * stride + pt.x]`. -/
def at_point (p : Plane) (x y : Int) : Int := y * p.linesize + x

def do_compiz (dst : AVPicture) (pt_dst : POINT) (src : AVPicture) (pt_src : POINT)
    (width height : Int) (alpha : UInt8) : Except Fault AVPicture :=
  let py : Pointers := ⟨at_point dst.y pt_dst.x pt_dst.y, at_point src.y pt_src.x pt_src.y⟩
  let pu : Pointers := ⟨at_point dst.u (pt_dst.x.tdiv 2) (pt_dst.y.tdiv 2),
    at_point src.u (pt_src.x.tdiv 2) (pt_src.y.tdiv 2)⟩
  let pv : Pointers := ⟨at_point dst.v (pt_dst.x.tdiv 2) (pt_dst.y.tdiv 2),
    at_point src.v (pt_src.x.tdiv 2) (pt_src.y.tdiv 2)⟩
  let rows := (height.tdiv 2).toNat
  if alpha = 255 then compiz_rows memcpy src width rows dst py pu pv
  else if alpha = 0 then .ok dst
  else compiz_rows (do_pixels alpha) src width rows dst py pu pv

/-- The part of the source that lies on the target in one direction: where it starts in each
of them, and how long it is. There is none when they do not meet. A source that starts
before the target is not cut off at its end. -/
def cut (x src_width dst_width : Int) : Option (Int × Int × Int) :=
  if x ≥ 0 then
    if x ≥ dst_width then none else some (x, 0, min src_width (dst_width - x))
  else if 0 - x ≥ src_width then none
  else some (0, -x, src_width + x)

def do_compiz_safe (dst src : YUV) (x y : Int) (alpha : UInt8) : Except Fault AVPicture :=
  match cut x src.width dst.width with
  | none => .ok dst.pic
  | some (dst_x, src_x, width) =>
    match cut y src.height dst.height with
    | none => .ok dst.pic
    | some (dst_y, src_y, height) =>
      do_compiz dst.pic ⟨dst_x, dst_y⟩ src.pic ⟨src_x, src_y⟩ width height alpha

structure Canvas where
  width_ : Int
  height_ : Int
  pic_ : AVPicture

/-- `alpha & 0xff`. -/
def Canvas.draw_yuv (c : Canvas) (pic : AVPicture) (x y width height alpha : Int) :
    Except Fault Canvas := do
  let pic_ ← do_compiz_safe ⟨c.pic_, c.width_, c.height_⟩ ⟨pic, width, height⟩ x y
    (UInt8.ofInt alpha)
  return { c with pic_ }

/-- The loop of `memset` over the rows of a plane. -/
def fill_rows (b : UInt8) (width : Int) : Nat → Plane → Int → Except Fault Plane
  | 0, p, _ => .ok p
  | n + 1, p, d => do
    let data ← memcpy p.data d (List.replicate width.toNat b) 0 width
    fill_rows b width n ⟨data, p.linesize⟩ (d + p.linesize)

def Canvas.clear (c : Canvas) : Except Fault Canvas := do
  let y ← fill_rows 0x55 c.width_ c.height_.toNat c.pic_.y 0
  let u ← fill_rows 0x80 (c.width_.tdiv 2) (c.height_.tdiv 2).toNat c.pic_.u 0
  let v ← fill_rows 0x80 (c.width_.tdiv 2) (c.height_.tdiv 2).toNat c.pic_.v 0
  return { c with pic_ := ⟨y, u, v⟩ }

/-! ## The pictures of the channels -/

structure YUVPicture where
  x : Int
  y : Int
  width : Int
  height : Int
  alpha : Int
  pic : AVPicture

/-- The picture that a channel has saved last, and its place. -/
structure SavedPicture where
  x_ : Int
  y_ : Int
  width_ : Int
  height_ : Int
  alpha_ : Int
  pic_ : AVPicture
  idle_ : Bool
  valid_ : Bool

/-- The loop of `memcpy` over the rows of a plane. -/
def copy_rows (src : Plane) (width : Int) : Nat → Plane → Pointers → Except Fault Plane
  | 0, dst, _ => .ok dst
  | n + 1, dst, p => do
    let data ← memcpy dst.data p.d src.data p.s width
    copy_rows src width n ⟨data, dst.linesize⟩ (p.next dst src)

/-- The copy of the saved picture, in memory of `avpicture_alloc`. A channel that has none
gives an empty picture, without memory. -/
def SavedPicture.get_pic (avpicture_alloc : Int → Int → AVPicture) (s : SavedPicture) :
    Except Fault YUVPicture :=
  if s.idle_ ∨ ¬ s.valid_ then
    .ok ⟨s.x_, s.y_, 0, 0, s.alpha_, ⟨⟨[], 0⟩, ⟨[], 0⟩, ⟨[], 0⟩⟩⟩
  else do
    let pic := avpicture_alloc s.width_ s.height_
    let y ← copy_rows s.pic_.y s.width_ s.height_.toNat pic.y ⟨0, 0⟩
    let u ← copy_rows s.pic_.u (s.width_.tdiv 2) (s.height_.tdiv 2).toNat pic.u ⟨0, 0⟩
    let v ← copy_rows s.pic_.v (s.width_.tdiv 2) (s.height_.tdiv 2).toNat pic.v ⟨0, 0⟩
    return ⟨s.x_, s.y_, s.width_, s.height_, s.alpha_, ⟨y, u, v⟩⟩

/-! ## One step of the mixer thread -/

/-- What `one_step` draws from. A slot of `channels_` can be empty. -/
structure Scene where
  canvas_ : Canvas
  channels_ : Nat → Option SavedPicture
  zorder_ : List Int

/-- The loop over the z-order. Also the number of the active inputs. -/
def draw_loop (avpicture_alloc : Int → Int → AVPicture) (channels_ : Nat → Option SavedPicture) :
    List Int → Nat → Canvas → Except Fault (Nat × Canvas)
  | [], _, _ => .error .outOfBounds
  | z :: zs, active, canvas_ =>
    if z = -1 then .ok (active, canvas_)
    else if z < 0 ∨ MAX_CHANNELS < z then .error .outOfBounds
    else match channels_ z.toNat with
      | none => draw_loop avpicture_alloc channels_ zs active canvas_
      | some source => do
        let pic ← source.get_pic avpicture_alloc
        if pic.width > 0 ∧ pic.height > 0 then do
          let canvas_ ← canvas_.draw_yuv pic.pic pic.x pic.y pic.width pic.height pic.alpha
          draw_loop avpicture_alloc channels_ zs (active + 1) canvas_
        else draw_loop avpicture_alloc channels_ zs (active + 1) canvas_

/-- The part of `one_step` that draws. -/
def Scene.one_step (s : Scene) (avpicture_alloc : Int → Int → AVPicture) :
    Except Fault (Nat × Canvas) := do
  let canvas_ ← s.canvas_.clear
  draw_loop avpicture_alloc s.channels_ s.zorder_ 0 canvas_

end zonekey_mcu.canvas
