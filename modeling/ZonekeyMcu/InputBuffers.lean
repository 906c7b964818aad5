-- The picture buffer of a channel of the video mixer. `save_pic` makes the buffer and the scaler
-- anew when one of four sizes has changed, and the constructor starts with other sizes than those
-- of the buffer that it makes.
import ZonekeyMcu.Painting
import ZonekeyMcu.Lib.Runs

open runs raster zonekey_mcu.canvas

namespace zonekey_mcu.input_source

/-! ## The source -/

/-- A decoded picture. -/
structure MSPicture where
  w : Int
  h : Int
  pic : AVPicture

/-- A scaler, with the sizes that `sws_getContext` made it for. -/
structure SwsContext where
  src_w : Int
  src_h : Int
  dst_w : Int
  dst_h : Int
  deriving DecidableEq

/-- Memory of `avpicture_alloc`, with the size that was asked for. -/
structure Buffer where
  width : Int
  height : Int
  pic : AVPicture

/-- What the mixer takes from the two libraries. `sws_scale` gives the target with the scaled
picture in it. -/
structure Libs where
  avpicture_alloc : Int → Int → AVPicture
  sws_scale : SwsContext → MSPicture → AVPicture → AVPicture

structure InputSource where
  x_ : Int
  y_ : Int
  width_ : Int
  height_ : Int
  alpha_ : Int
  want_x_ : Int
  want_y_ : Int
  want_width_ : Int
  want_height_ : Int
  want_alpha_ : Int
  sws_ : Option SwsContext
  pic_ : Buffer
  last_width_ : Int
  last_height_ : Int
  idle_ : Bool
  valid_ : Bool

section

variable (libs : Libs)

def Libs.alloc (width height : Int) : Buffer := ⟨width, height, libs.avpicture_alloc width height⟩

/-- The constructor leaves `want_alpha_` as it finds it in memory. -/
def InputSource.new (want_alpha : Int) : InputSource where
  x_ := 0
  y_ := 0
  width_ := 16
  height_ := 16
  alpha_ := 255
  want_x_ := 0
  want_y_ := 0
  want_width_ := 160
  want_height_ := 160
  want_alpha_ := want_alpha
  sws_ := none
  pic_ := libs.alloc 160 160
  last_width_ := 160
  last_height_ := 160
  idle_ := true
  valid_ := false

/-- A scaler reads a picture of its first size and writes one of its second size. -/
def scale (sws_ : Option SwsContext) (pic : MSPicture) (pic_ : Buffer) : Except Fault Buffer :=
  match sws_ with
  -- sws_ is a null pointer
  | none => .error .outOfBounds
  | some sws =>
    if sws = ⟨pic.w, pic.h, pic_.width, pic_.height⟩ then
      .ok { pic_ with pic := libs.sws_scale sws pic pic_.pic }
    else .error .outOfBounds

/-- The new buffer and the new scaler of `save_pic`. -/
def InputSource.rebuild (s : InputSource) (pic : MSPicture) : InputSource :=
  { s with
    pic_ := libs.alloc s.want_width_ s.want_height_
    sws_ := some ⟨pic.w, pic.h, s.want_width_, s.want_height_⟩
    last_width_ := pic.w
    last_height_ := pic.h
    width_ := s.want_width_
    height_ := s.want_height_ }

/-- The part of `save_pic` before the scaler. -/
def InputSource.prepare (s : InputSource) (pic : MSPicture) : InputSource :=
  let s := { s with valid_ := true }
  let s :=
    if s.want_width_ ≠ s.width_ ∨ s.want_height_ ≠ s.height_ ∨ pic.w ≠ s.last_width_ ∨
        pic.h ≠ s.last_height_ then
      s.rebuild libs pic
    else s
  { s with x_ := s.want_x_, y_ := s.want_y_, alpha_ := s.want_alpha_ }

def InputSource.save_pic (s : InputSource) (pic : MSPicture) : Except Fault InputSource :=
  if s.idle_ then .ok s
  else if s.want_width_ = 0 ∨ s.want_height_ = 0 ∨ pic.w = 0 ∨ pic.h = 0 then .ok s
  else do
    let s := s.prepare libs pic
    let pic_ ← scale libs s.sws_ pic s.pic_
    return { s with pic_ }

def InputSource.employ (s : InputSource) : InputSource :=
  { s with idle_ := false, valid_ := false }

def InputSource.disemploy (s : InputSource) : InputSource := { s with idle_ := true }

def InputSource.set_param (s : InputSource) (x y width height alpha : Int) :
    Except Fault InputSource :=
  -- assert(!idle())
  if s.idle_ then .error .assertFailed
  else .ok { s with
    want_x_ := x
    want_y_ := y
    want_width_ := width
    want_height_ := height
    want_alpha_ := alpha }

/-- What `get_pic` looks at. -/
def InputSource.saved (s : InputSource) : SavedPicture :=
  ⟨s.x_, s.y_, s.width_, s.height_, s.alpha_, s.pic_.pic, s.idle_, s.valid_⟩

def InputSource.get_pic (s : InputSource) : Except Fault YUVPicture :=
  s.saved.get_pic libs.avpicture_alloc

inductive Call
  | employ
  | disemploy
  | set_param (x y width height alpha : Int)
  | save_pic (pic : MSPicture)
  | get_pic

def step (s : InputSource) : Call → Except Fault InputSource
  | .employ => .ok s.employ
  | .disemploy => .ok s.disemploy
  | .set_param x y width height alpha => s.set_param x y width height alpha
  | .save_pic pic => s.save_pic libs pic
  | .get_pic => (s.get_pic libs).map fun _ => s

end

/-! ## The channel of the mixer -/

/-- What the mixer keeps of a source: the wanted place, and whether it is in use. -/
def InputSource.channel (s : InputSource) : video_mixer.InputSource :=
  ⟨s.want_x_, s.want_y_, s.want_width_, s.want_height_, s.want_alpha_, s.idle_, s.valid_⟩

section

variable (libs : Libs) (s : InputSource)

theorem channel_new (want_alpha : Int) :
    (InputSource.new libs want_alpha).channel = video_mixer.InputSource.new want_alpha := rfl

theorem channel_employ : s.employ.channel = s.channel.employ := rfl

theorem channel_disemploy : s.disemploy.channel = s.channel.disemploy := rfl

theorem channel_set_param (x y width height alpha : Int) :
    (s.set_param x y width height alpha).map InputSource.channel =
      s.channel.set_param x y width height alpha := by
  unfold InputSource.set_param video_mixer.InputSource.set_param InputSource.channel
  by_cases hidle : s.idle_ = true
  · rw [if_pos hidle, if_pos hidle]
    rfl
  · rw [if_neg hidle, if_neg hidle]
    rfl

end

/-! ## The libraries -/

/-- Two pictures are the same in the first `height` rows of `width` pixels. -/
structure Same (p q : AVPicture) (width height : Nat) : Prop where
  y : ∀ i j, i < width → j < height → p.y.pixel i j = q.y.pixel i j
  u : ∀ i j, i < width / 2 → j < height / 2 → p.u.pixel i j = q.u.pixel i j
  v : ∀ i j, i < width / 2 → j < height / 2 → p.v.pixel i j = q.v.pixel i j

theorem Same.trans {p q r : AVPicture} {width height : Nat} (h : Same p q width height)
    (h' : Same q r width height) : Same p r width height where
  y i j hi hj := (h.y i j hi hj).trans (h'.y i j hi hj)
  u i j hi hj := (h.u i j hi hj).trans (h'.u i j hi hj)
  v i j hi hj := (h.v i j hi hj).trans (h'.v i j hi hj)

/-- A picture in the size of another one, as a scaler writes it into fresh memory. -/
def scaled (libs : Libs) (pic : MSPicture) (width height : Int) : AVPicture :=
  libs.sws_scale ⟨pic.w, pic.h, width, height⟩ pic (libs.avpicture_alloc width height)

/-- `avpicture_alloc` gives memory for the size that it is asked for, and a scaler writes every
pixel of its target. -/
structure Libs.Work (libs : Libs) : Prop where
  allocates : Allocates libs.avpicture_alloc
  keeps : ∀ (pic : MSPicture) (dst : AVPicture) (width height : Nat), dst.Holds width height →
    (libs.sws_scale ⟨pic.w, pic.h, width, height⟩ pic dst).Holds width height
  overwrites : ∀ (pic : MSPicture) (dst : AVPicture) (width height : Nat),
    dst.Holds width height →
      Same (libs.sws_scale ⟨pic.w, pic.h, width, height⟩ pic dst)
        (scaled libs pic width height) width height

/-! ## The property -/

/-- The buffer has the size of the saved picture, and the scaler is the one for the last input. -/
structure InputSource.Matches (s : InputSource) : Prop where
  width : s.pic_.width = s.width_
  height : s.pic_.height = s.height_
  holds : s.pic_.pic.Holds s.width_.toNat s.height_.toNat
  scaler : s.sws_ = some ⟨s.last_width_, s.last_height_, s.width_, s.height_⟩

/-- After these calls `get_pic` gives nothing, or the picture of a `save_pic` with no `employ`
behind it. -/
def InputSource.Fresh (libs : Libs) (calls : List Call) (s : InputSource) : Prop :=
  ∃ r, s.get_pic libs = .ok r ∧ (r.width = 0 ∧ r.height = 0 ∨
    ∃ before pic behind, calls = before ++ .save_pic pic :: behind ∧ Call.employ ∉ behind ∧
      Same r.pic (scaled libs pic r.width r.height) r.width.toNat r.height.toNat)

/-- The call has no negative size. -/
def Call.Sized : Call → Prop
  | .set_param _ _ width height _ => 0 ≤ width ∧ 0 ≤ height
  | .save_pic pic => 0 ≤ pic.w ∧ 0 ≤ pic.h
  | _ => True

/-- The call does not save, as the first picture, one whose sizes are those of the
constructor. -/
def InputSource.Differs (s : InputSource) : Call → Prop
  | .save_pic pic => s.sws_ = none → s.idle_ = false →
      ¬ (s.want_width_ = 16 ∧ s.want_height_ = 16 ∧ pic.w = 160 ∧ pic.h = 160)
  | _ => True

/-! ## What a call keeps -/

/-- Before the first scaler there are the sizes of the constructor, and no picture. -/
structure InputSource.Inv (s : InputSource) : Prop where
  want_width : 0 ≤ s.want_width_
  want_height : 0 ≤ s.want_height_
  width : 0 ≤ s.width_
  height : 0 ≤ s.height_
  first : s.sws_ = none → s.valid_ = false ∧ s.width_ = 16 ∧ s.height_ = 16 ∧
    s.last_width_ = 160 ∧ s.last_height_ = 160
  then_ : s.sws_ ≠ none → s.Matches

section

variable {libs : Libs} {s t : InputSource} {pic : MSPicture}

theorem InputSource.Inv.matches (h : s.Inv) (hvalid : s.valid_ = true) : s.Matches := by
  apply h.then_
  intro hnone
  have := (h.first hnone).1
  rw [hvalid] at this
  cases this

theorem new_inv (libs : Libs) (want_alpha : Int) : (InputSource.new libs want_alpha).Inv where
  want_width := (by decide : (0 : Int) ≤ 160)
  want_height := (by decide : (0 : Int) ≤ 160)
  width := (by decide : (0 : Int) ≤ 16)
  height := (by decide : (0 : Int) ≤ 16)
  first _ := ⟨rfl, rfl, rfl, rfl, rfl⟩
  then_ h := absurd rfl h

/-- A picture that is looked at: the channel is in use, and no size is 0. -/
def InputSource.Takes (s : InputSource) (pic : MSPicture) : Prop :=
  s.idle_ = false ∧ ¬ (s.want_width_ = 0 ∨ s.want_height_ = 0 ∨ pic.w = 0 ∨ pic.h = 0)

theorem save_pic_ignored (h : ¬ s.Takes pic) : s.save_pic libs pic = .ok s := by
  unfold InputSource.save_pic
  by_cases hidle : s.idle_ = true
  · rw [if_pos hidle]
  · rw [if_neg hidle, if_pos]
    by_contra hsize
    exact h ⟨Bool.eq_false_iff.mpr hidle, hsize⟩

theorem save_pic_taken (h : s.Takes pic) :
    s.save_pic libs pic = (scale libs (s.prepare libs pic).sws_ pic (s.prepare libs pic).pic_ >>=
      fun pic_ => .ok { s.prepare libs pic with pic_ }) := by
  have hidle : ¬ s.idle_ = true := by
    rw [h.1]
    exact Bool.false_ne_true
  unfold InputSource.save_pic
  rw [if_neg hidle, if_neg h.2]
  rfl

/-- What the sizes are that a picture is scaled with. -/
structure Prepared (libs : Libs) (s s' : InputSource) (pic : MSPicture) : Prop where
  want_width : s'.want_width_ = s.want_width_
  want_height : s'.want_height_ = s.want_height_
  width : s'.width_ = s.want_width_
  height : s'.height_ = s.want_height_
  last_width : s'.last_width_ = pic.w
  last_height : s'.last_height_ = pic.h
  idle : s'.idle_ = s.idle_

theorem prepare_sizes : Prepared libs s (s.prepare libs pic) pic := by
  unfold InputSource.prepare
  dsimp only
  split
  · exact ⟨rfl, rfl, rfl, rfl, rfl, rfl, rfl⟩
  · rename_i hsame
    simp only [not_or, not_not] at hsame
    obtain ⟨hwidth, hheight, hw, hh⟩ := hsame
    exact ⟨rfl, rfl, hwidth.symm, hheight.symm, hw.symm, hh.symm, rfl⟩

/-- Once there is a scaler, and with other sizes than those of the constructor, the scaler and the
buffer are those for the picture. -/
theorem prepare_matches (hlibs : libs.Work) (h : s.Inv) (htakes : s.Takes pic)
    (hdiffers : s.Differs (.save_pic pic)) : (s.prepare libs pic).Matches := by
  unfold InputSource.prepare
  dsimp only
  split
  · obtain ⟨w, hw⟩ := Int.eq_ofNat_of_zero_le h.want_width
    obtain ⟨k, hk⟩ := Int.eq_ofNat_of_zero_le h.want_height
    refine ⟨rfl, rfl, ?_, rfl⟩
    unfold InputSource.rebuild Libs.alloc
    dsimp only
    rw [hw, hk]
    exact hlibs.allocates w k
  · rename_i hsame
    simp only [not_or, not_not] at hsame
    obtain ⟨hwidth, hheight, hw, hh⟩ := hsame
    have hscaler : s.sws_ ≠ none := by
      intro hnone
      obtain ⟨-, h16, h16', h160, h160'⟩ := h.first hnone
      apply hdiffers hnone htakes.1
      exact ⟨hwidth.trans h16, hheight.trans h16', hw.trans h160, hh.trans h160'⟩
    obtain ⟨hmw, hmh, hholds, hsws⟩ := h.then_ hscaler
    exact ⟨hmw, hmh, hholds, hsws⟩

/-- A picture that is saved. -/
theorem save_pic_saves (hlibs : libs.Work) (h : s.Inv) (htakes : s.Takes pic)
    (hdiffers : s.Differs (.save_pic pic)) :
    ∃ t, s.save_pic libs pic = .ok t ∧ t.Matches ∧ Prepared libs s t pic ∧
      Same t.pic_.pic (scaled libs pic t.width_ t.height_) t.width_.toNat t.height_.toNat := by
  have hsizes : Prepared libs s (s.prepare libs pic) pic := prepare_sizes
  have hmatches := prepare_matches hlibs h htakes hdiffers
  obtain ⟨w, hw⟩ := Int.eq_ofNat_of_zero_le h.want_width
  obtain ⟨k, hk⟩ := Int.eq_ofNat_of_zero_le h.want_height
  rw [save_pic_taken htakes]
  generalize s.prepare libs pic = s' at hsizes hmatches ⊢
  have hscaler : s'.sws_ = some ⟨pic.w, pic.h, w, k⟩ := by
    rw [hmatches.scaler, hsizes.last_width, hsizes.last_height, hsizes.width, hsizes.height, hw, hk]
  have hwidth : s'.width_ = w := by rw [hsizes.width, hw]
  have hheight : s'.height_ = k := by rw [hsizes.height, hk]
  have hholds : s'.pic_.pic.Holds w k := by
    have := hmatches.holds
    rwa [hwidth, hheight] at this
  have hscale : scale libs s'.sws_ pic s'.pic_ =
      .ok { s'.pic_ with pic := libs.sws_scale ⟨pic.w, pic.h, w, k⟩ pic s'.pic_.pic } := by
    rw [hscaler]
    exact if_pos (by rw [hmatches.width, hmatches.height, hwidth, hheight])
  rw [hscale, ok_bind]
  refine ⟨_, rfl, ⟨hmatches.width, hmatches.height, ?_, hmatches.scaler⟩, ?_, ?_⟩
  · dsimp only
    rw [hwidth, hheight]
    exact hlibs.keeps pic _ w k hholds
  · exact ⟨hsizes.want_width, hsizes.want_height, hsizes.width, hsizes.height, hsizes.last_width,
      hsizes.last_height, hsizes.idle⟩
  · dsimp only
    rw [hwidth, hheight]
    exact hlibs.overwrites pic _ w k hholds

/-- The first picture, with the sizes of the constructor: there is no scaler for it. -/
theorem save_pic_stuck (h : s.Inv) (hdiffers : ¬ s.Differs (.save_pic pic)) :
    s.save_pic libs pic = .error .outOfBounds := by
  simp only [InputSource.Differs, not_forall, not_not] at hdiffers
  obtain ⟨hnone, hidle, hw, hh, hpw, hph⟩ := hdiffers
  obtain ⟨-, h16, h16', h160, h160'⟩ := h.first hnone
  have htakes : s.Takes pic := ⟨hidle, by omega⟩
  have hsws : (s.prepare libs pic).sws_ = none := by
    unfold InputSource.prepare
    dsimp only
    rw [if_neg (by omega)]
    exact hnone
  rw [save_pic_taken htakes, hsws]
  rfl

/-- The copy of a picture that is shown, in memory of its size. -/
theorem get_pic_same (hlibs : libs.Work) (h : s.Inv) (hshown : s.idle_ = false ∧ s.valid_ = true) :
    ∃ r, s.get_pic libs = .ok r ∧ r.width = s.width_ ∧ r.height = s.height_ ∧
      Same r.pic s.pic_.pic s.width_.toNat s.height_.toNat := by
  have hholds := (h.matches hshown.2).holds
  obtain ⟨pic, hget, -, hy, hu, hv⟩ := @get_pic_copies _ hlibs.allocates s.saved h.width h.height
    hholds hshown
  exact ⟨_, hget, rfl, rfl, hy, hu, hv⟩

theorem get_pic_hidden (libs : Libs) (hhidden : ¬ (s.idle_ = false ∧ s.valid_ = true)) :
    ∃ r, s.get_pic libs = .ok r ∧ r.width = 0 ∧ r.height = 0 := by
  refine ⟨_, if_pos ?_, rfl, rfl⟩
  by_contra hboth
  rw [not_or, not_not] at hboth
  exact hhidden ⟨Bool.eq_false_iff.mpr hboth.1, hboth.2⟩

theorem get_pic_ends (hlibs : libs.Work) (h : s.Inv) : ∃ r, s.get_pic libs = .ok r := by
  by_cases hshown : s.idle_ = false ∧ s.valid_ = true
  · obtain ⟨r, hr, -⟩ := get_pic_same hlibs h hshown
    exact ⟨r, hr⟩
  · obtain ⟨r, hr, -⟩ := get_pic_hidden libs hshown
    exact ⟨r, hr⟩

/-! ## Each call -/

theorem InputSource.Inv.saved (h : s.Inv) (hmatches : t.Matches) (hsizes : Prepared libs s t pic) :
    t.Inv where
  want_width := by rw [hsizes.want_width]; exact h.want_width
  want_height := by rw [hsizes.want_height]; exact h.want_height
  width := by rw [hsizes.width]; exact h.want_width
  height := by rw [hsizes.height]; exact h.want_height
  first hnone := by rw [hmatches.scaler] at hnone; cases hnone
  then_ _ := hmatches

/-- The picture stays as it is. -/
structure Keeps (s t : InputSource) : Prop where
  valid : t.valid_ = s.valid_
  width : t.width_ = s.width_
  height : t.height_ = s.height_
  pic : t.pic_ = s.pic_

theorem set_param_inv {x y width height alpha : Int} (h : s.Inv)
    (hsized : 0 ≤ width ∧ 0 ≤ height) (hstep : s.set_param x y width height alpha = .ok t) :
    t.Inv ∧ Keeps s t := by
  unfold InputSource.set_param at hstep
  split at hstep
  · cases hstep
  · cases hstep
    refine ⟨⟨hsized.1, hsized.2, h.width, h.height, h.first, fun hne => ?_⟩, rfl, rfl, rfl, rfl⟩
    obtain ⟨hmw, hmh, hholds, hsws⟩ := h.then_ hne
    exact ⟨hmw, hmh, hholds, hsws⟩

theorem employ_inv (h : s.Inv) : s.employ.Inv := by
  refine ⟨h.want_width, h.want_height, h.width, h.height, fun hnone => ⟨rfl, (h.first hnone).2⟩,
    fun hne => ?_⟩
  obtain ⟨hmw, hmh, hholds, hsws⟩ := h.then_ hne
  exact ⟨hmw, hmh, hholds, hsws⟩

theorem disemploy_inv (h : s.Inv) : s.disemploy.Inv := by
  refine ⟨h.want_width, h.want_height, h.width, h.height, h.first, fun hne => ?_⟩
  obtain ⟨hmw, hmh, hholds, hsws⟩ := h.then_ hne
  exact ⟨hmw, hmh, hholds, hsws⟩

/-- What a call can do to the picture. -/
theorem step_cases (hlibs : libs.Work) {call : Call} (h : s.Inv) (hsized : call.Sized)
    (hstep : step libs s call = .ok t) :
    t.Inv ∧ (call = .employ ∧ t.valid_ = false ∨ call ≠ .employ ∧ Keeps s t ∨
      ∃ pic, call = .save_pic pic ∧ Same t.pic_.pic (scaled libs pic t.width_ t.height_)
        t.width_.toNat t.height_.toNat) := by
  cases call with
  | employ =>
    cases hstep
    exact ⟨employ_inv h, .inl ⟨rfl, rfl⟩⟩
  | disemploy =>
    cases hstep
    exact ⟨disemploy_inv h, .inr (.inl ⟨nofun, rfl, rfl, rfl, rfl⟩)⟩
  | set_param x y width height alpha =>
    obtain ⟨hinv, hkeeps⟩ := set_param_inv h hsized hstep
    exact ⟨hinv, .inr (.inl ⟨nofun, hkeeps⟩)⟩
  | get_pic =>
    obtain ⟨r, hr⟩ := get_pic_ends hlibs h
    dsimp only [step] at hstep
    rw [hr] at hstep
    cases hstep
    exact ⟨h, .inr (.inl ⟨nofun, rfl, rfl, rfl, rfl⟩)⟩
  | save_pic pic =>
    dsimp only [step] at hstep
    by_cases htakes : s.Takes pic
    · by_cases hdiffers : s.Differs (.save_pic pic)
      · obtain ⟨u, hu, hmatches, hsizes, hsame⟩ := save_pic_saves hlibs h htakes hdiffers
        rw [hu] at hstep
        cases hstep
        exact ⟨h.saved hmatches hsizes, .inr (.inr ⟨pic, rfl, hsame⟩)⟩
      · rw [save_pic_stuck h hdiffers] at hstep
        cases hstep
    · rw [save_pic_ignored htakes] at hstep
      cases hstep
      exact ⟨h, .inr (.inl ⟨nofun, rfl, rfl, rfl, rfl⟩)⟩

/-- What is known of a picture that is shown after these calls. -/
structure Known (libs : Libs) (calls : List Call) (s : InputSource) : Prop where
  inv : s.Inv
  shown : s.valid_ = true → ∃ before pic behind, calls = before ++ .save_pic pic :: behind ∧
    Call.employ ∉ behind ∧ Same s.pic_.pic (scaled libs pic s.width_ s.height_) s.width_.toNat
      s.height_.toNat

theorem step_known (hlibs : libs.Work) (done : List Call) (s : InputSource) (call : Call)
    (t : InputSource) (h : Known libs done s) (hsized : call.Sized)
    (hstep : step libs s call = .ok t) : Known libs (done ++ [call]) t := by
  obtain ⟨hinv, hcases⟩ := step_cases hlibs h.inv hsized hstep
  refine ⟨hinv, fun hshown => ?_⟩
  rcases hcases with ⟨rfl, hhidden⟩ | ⟨hcall, hkeeps⟩ | ⟨pic, rfl, hsame⟩
  · rw [hhidden] at hshown
    cases hshown
  · rw [hkeeps.valid] at hshown
    obtain ⟨before, pic, behind, rfl, hno, hsame⟩ := h.shown hshown
    refine ⟨before, pic, behind ++ [call], by simp, ?_, ?_⟩
    · rw [List.mem_append, List.mem_singleton]
      rintro (hmem | rfl)
      · exact hno hmem
      · exact hcall rfl
    · rw [hkeeps.width, hkeeps.height, hkeeps.pic]
      exact hsame
  · exact ⟨done, pic, [], rfl, List.not_mem_nil, hsame⟩

theorem Known.fresh (hlibs : libs.Work) {calls : List Call} (h : Known libs calls s) :
    s.Fresh libs calls := by
  by_cases hshown : s.idle_ = false ∧ s.valid_ = true
  · obtain ⟨r, hr, hwidth, hheight, hcopy⟩ := get_pic_same hlibs h.inv hshown
    obtain ⟨before, pic, behind, hcalls, hno, hsame⟩ := h.shown hshown.2
    refine ⟨r, hr, .inr ⟨before, pic, behind, hcalls, hno, ?_⟩⟩
    rw [hwidth, hheight]
    exact hcopy.trans hsame
  · obtain ⟨r, hr, hempty⟩ := get_pic_hidden libs hshown
    exact ⟨r, hr, .inl hempty⟩

/-- The one fault of a call that meets the condition is the assertion of `set_param`. -/
theorem step_stops (hlibs : libs.Work) (s : InputSource) (call : Call) (e : Fault) (h : s.Inv)
    (hdiffers : s.Differs call) (hstep : step libs s call = .error e) : e = .assertFailed := by
  cases call with
  | employ => cases hstep
  | disemploy => cases hstep
  | set_param x y width height alpha =>
    dsimp only [step, InputSource.set_param] at hstep
    split at hstep
    · cases hstep
      rfl
    · cases hstep
  | get_pic =>
    obtain ⟨r, hr⟩ := get_pic_ends hlibs h
    dsimp only [step] at hstep
    rw [hr] at hstep
    cases hstep
  | save_pic pic =>
    dsimp only [step] at hstep
    by_cases htakes : s.Takes pic
    · obtain ⟨t, ht, -⟩ := save_pic_saves hlibs h htakes hdiffers
      rw [ht] at hstep
      cases hstep
    · rw [save_pic_ignored htakes] at hstep
      cases hstep

theorem step_stuck (s : InputSource) (call : Call) (h : s.Inv) (hdiffers : ¬ s.Differs call) :
    ∃ e, step libs s call = .error e ∧ ¬ e = .assertFailed := by
  cases call with
  | save_pic pic => exact ⟨_, save_pic_stuck h hdiffers, by decide⟩
  | _ => exact absurd trivial hdiffers

end

/-! ## The law -/

/-- In every run a picture is scaled and copied with the buffer and the scaler for its sizes, and
the one that is shown was saved after the last `employ`, if and only if the first picture that is
saved does not have the sizes of the constructor. -/
theorem the_buffers_match_unless_the_first_sizes_are_met {libs : Libs} (hlibs : libs.Work)
    (want_alpha : Int) (calls : List Call) (hsized : ∀ call ∈ calls, call.Sized) :
    ((∀ e, run (step libs) (InputSource.new libs want_alpha) calls = .error e →
        e = .assertFailed) ∧
      ∀ s, run (step libs) (InputSource.new libs want_alpha) calls = .ok s →
        (s.valid_ = true → s.Matches) ∧ s.Fresh libs calls) ↔
      Meets (step libs) InputSource.Differs (InputSource.new libs want_alpha) calls := by
  have hstops := stops_iff_meets (E := (· = Fault.assertFailed))
    (fun _ _ _ h hd hstep => (step_cases hlibs h hd hstep).1)
    (fun s call e h _ hc hstep => step_stops hlibs s call e h hc hstep)
    (fun s call h _ hc => step_stuck s call h hc) calls (new_inv libs want_alpha) hsized
  constructor
  · rintro ⟨hends, -⟩
    exact hstops.mp hends
  · intro hmeets
    refine ⟨hstops.mpr hmeets, fun s hrun => ?_⟩
    have hstart : Known libs [] (InputSource.new libs want_alpha) :=
      ⟨new_inv libs want_alpha, fun hshown => by cases hshown⟩
    have hknown := run_keeps_log (step_known hlibs) hstart hsized hrun
    rw [List.nil_append] at hknown
    exact ⟨hknown.inv.matches, hknown.fresh hlibs⟩

/-- A scaler for pictures of one colour. -/
def one_colour : Libs where
  avpicture_alloc := yuv420p 0
  sws_scale sws pic _ := yuv420p (pic.pic.y.data.headD 0) sws.dst_w sws.dst_h

theorem one_colour_works : one_colour.Work where
  allocates := yuv420p_allocates 0
  keeps _ _ width height _ := yuv420p_allocates _ width height
  overwrites _ _ _ _ _ := ⟨fun _ _ _ _ => rfl, fun _ _ _ _ => rfl, fun _ _ _ _ => rfl⟩

/-- A picture of 2x2 in its own size. -/
def small_picture : List Call :=
  [.employ, .set_param 0 0 2 2 255, .save_pic ⟨2, 2, yuv420p 0x10 2 2⟩, .get_pic]

theorem the_buffers_match_unless_the_first_sizes_are_met_example :
    ((∀ e, run (step one_colour) (InputSource.new one_colour 0) small_picture = .error e →
        e = .assertFailed) ∧
      ∀ s, run (step one_colour) (InputSource.new one_colour 0) small_picture = .ok s →
        (s.valid_ = true → s.Matches) ∧ s.Fresh one_colour small_picture) ↔
      Meets (step one_colour) InputSource.Differs (InputSource.new one_colour 0) small_picture := by
  refine the_buffers_match_unless_the_first_sizes_are_met one_colour_works 0 small_picture ?_
  intro call hcall
  simp only [small_picture, List.mem_cons, List.not_mem_nil, or_false] at hcall
  rcases hcall with rfl | rfl | rfl | rfl
  · trivial
  · exact ⟨by decide, by decide⟩
  · exact ⟨by decide, by decide⟩
  · trivial

/-- A channel that wants 16x16 gets a first picture of 160x160: it is valid, without a scaler. -/
theorem the_first_sizes_have_no_scaler : ∃ s,
    run (step one_colour) (InputSource.new one_colour 0) [.employ, .set_param 0 0 16 16 255] =
        .ok s ∧
      (s.prepare one_colour ⟨160, 160, yuv420p 0x10 160 160⟩).valid_ = true ∧
      (s.prepare one_colour ⟨160, 160, yuv420p 0x10 160 160⟩).sws_ = none ∧
      (s.prepare one_colour ⟨160, 160, yuv420p 0x10 160 160⟩).pic_.width ≠
        (s.prepare one_colour ⟨160, 160, yuv420p 0x10 160 160⟩).width_ ∧
      s.save_pic one_colour ⟨160, 160, yuv420p 0x10 160 160⟩ = .error .outOfBounds :=
  ⟨_, rfl, rfl, rfl, by decide, rfl⟩

end zonekey_mcu.input_source
