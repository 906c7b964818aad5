-- The video mixer of a director conference: its channels, and the z-order array
-- of the channels in use. The array holds channel ids and ends at the first -1.
import ZonekeyMcu.Fault

namespace zonekey_mcu.video_mixer

/-- `ZONEKEY_VIDEO_MIXER_MAX_CHANNELS`. -/
def MAX_CHANNELS : Nat := 20

/-! ## A channel -/

/-- The wanted place of the picture of a channel, and whether the channel is
in use. -/
structure InputSource where
  want_x_ : Int
  want_y_ : Int
  want_width_ : Int
  want_height_ : Int
  want_alpha_ : Int
  idle_ : Bool
  valid_ : Bool

/-- The constructor leaves `want_alpha_` as it finds it in memory. -/
def InputSource.new (want_alpha : Int) : InputSource where
  want_x_ := 0
  want_y_ := 0
  want_width_ := 160
  want_height_ := 160
  want_alpha_ := want_alpha
  idle_ := true
  valid_ := false

def InputSource.employ (s : InputSource) : InputSource :=
  { s with idle_ := false, valid_ := false }

def InputSource.disemploy (s : InputSource) : InputSource := { s with idle_ := true }

def InputSource.set_param (s : InputSource) (x y width height alpha : Int) :
    Except Fault InputSource :=
  -- assert(!idle())
  if s.idle_ then .error .assertFailed
  else .ok { s with
    want_x_ := x
    want_y_ := y
    want_width_ := width
    want_height_ := height
    want_alpha_ := alpha }

/-! ## The mixer -/

/-- `ZonekeyVideoMixerChannelDesc`. -/
structure ChannelDesc where
  id : Int
  x : Int
  y : Int
  width : Int
  height : Int
  alpha : Int
  deriving DecidableEq

inductive ZOrderOper
  | UP
  | DOWN
  | TOP
  | BOTTOM
  deriving DecidableEq, Repr

/-- `ZonekeyVideoMixerEncoderSetting`. No modelled function looks into the
frame rate, so it stays the text that the command gave. -/
structure EncoderSetting where
  width : Int
  height : Int
  fps : String
  kbps : Int
  gop : Int
  deriving DecidableEq

/-- The object of the class `CTX`. `channels_` and `zorder_` have
`MAX_CHANNELS + 1` slots in the C++ class. `zorder_` is a list of that length,
so that an access past its end can be seen. -/
structure CTX where
  channels_ : Nat → InputSource
  zorder_ : List Int
  setting : EncoderSetting

/-- The mixer thread starts with 960x540, 25 frames, 800 kbps. -/
def defaultSetting : EncoderSetting :=
  { width := 960, height := 540, fps := "25", kbps := 800, gop := 50 }

def CTX.new (want_alpha : Nat → Int) : CTX where
  channels_ := fun i => InputSource.new (want_alpha i)
  zorder_ := List.replicate (MAX_CHANNELS + 1) (-1)
  setting := defaultSetting

def CTX.set_channel (m : CTX) (i : Nat) (s : InputSource) : CTX :=
  { m with channels_ := fun j => if j = i then s else m.channels_ j }

@[simp] theorem set_channel_zorder (m : CTX) (i : Nat) (s : InputSource) :
    (m.set_channel i s).zorder_ = m.zorder_ := rfl

@[simp] theorem set_channel_setting (m : CTX) (i : Nat) (s : InputSource) :
    (m.set_channel i s).setting = m.setting := rfl

@[simp] theorem set_channel_self (m : CTX) (i : Nat) (s : InputSource) :
    (m.set_channel i s).channels_ i = s := by simp [CTX.set_channel]

theorem set_channel_ne (m : CTX) {i j : Nat} (s : InputSource) (h : j ≠ i) :
    (m.set_channel i s).channels_ j = m.channels_ j := by simp [CTX.set_channel, h]

/-- A scan of the array from slot `i` on: the first slot where `stop` holds. -/
def scan (stop : Int → Bool) : List Int → Nat → Except Fault Nat
  | [], _ => .error .outOfBounds
  | z :: zs, i => if stop z then .ok i else scan stop zs (i + 1)

/-- The first idle channel is taken, and comes last in the z-order. -/
def CTX.get_channel (m : CTX) : Except Fault (Int × CTX) :=
  match (List.range MAX_CHANNELS).find? fun i => (m.channels_ i).idle_ with
  | none => .ok (-1, m)
  | some i =>
    let m := m.set_channel i (m.channels_ i).employ
    match scan (· == -1) m.zorder_ 0 with
    | .error e => .error e
    | .ok z => .ok (i, { m with zorder_ := m.zorder_.set z i })

/-- The loop of `free_channel` from slot `i` on, for the slots from `i`: each
slot takes the value after it, until a slot holds -1. -/
def close_gap : List Int → Except Fault (List Int)
  | [] => .error .outOfBounds
  | z :: zs =>
    if z = -1 then .ok (z :: zs)
    else match zs with
      | [] => .error .outOfBounds
      | next :: rest => (close_gap (next :: rest)).map (next :: ·)

def CTX.free_channel (m : CTX) (cid : Int) : Except Fault (Int × CTX) :=
  if 0 ≤ cid ∧ cid < MAX_CHANNELS then
    let m := m.set_channel cid.toNat (m.channels_ cid.toNat).disemploy
    -- The search ends at slot MAX_CHANNELS when `cid` is not there.
    let i := (m.zorder_.take MAX_CHANNELS).findIdx (· == cid)
    match close_gap (m.zorder_.drop i) with
    | .error e => .error e
    | .ok tail => .ok (0, { m with zorder_ := m.zorder_.take i ++ tail })
  else .ok (-1, m)

def CTX.set_channel_desc (m : CTX) (desc : ChannelDesc) : Except Fault (Int × CTX) :=
  if desc.id < 0 ∨ MAX_CHANNELS ≤ desc.id then .ok (-1, m)
  else if (m.channels_ desc.id.toNat).idle_ then .ok (-1, m)
  else
    match (m.channels_ desc.id.toNat).set_param desc.x desc.y desc.width desc.height
      desc.alpha with
    | .error e => .error e
    | .ok s => .ok (0, m.set_channel desc.id.toNat s)

/-- An idle channel reads as all 0. -/
def CTX.get_channel_desc (m : CTX) (id : Int) : Option ChannelDesc :=
  if id < 0 ∨ MAX_CHANNELS ≤ id then none
  else
    let s := m.channels_ id.toNat
    if s.idle_ then some { id, x := 0, y := 0, width := 0, height := 0, alpha := 0 }
    else some { id, x := s.want_x_, y := s.want_y_, width := s.want_width_,
                height := s.want_height_, alpha := s.want_alpha_ }

def CTX.set_encoder (m : CTX) (setting : EncoderSetting) : CTX := { m with setting }

def CTX.get_encoder (m : CTX) : EncoderSetting := m.setting

def CTX.get_zorder_array (m : CTX) : List Int := m.zorder_

/-! ## The four moves of `rezorder` -/

/-- `swap(&zorder_[i], &zorder_[i + 1])`. -/
def swap (z : List Int) (i : Nat) : List Int :=
  (z.set i (z.getD (i + 1) (-1))).set (i + 1) (z.getD i (-1))

/-- The loop of UP. The window of slots `i` and `i + 1` goes through the array
until slot `i + 1` holds -1. -/
def rezorder_up (id : Int) : List Int → Except Fault (List Int)
  | a :: b :: rest =>
    if b = -1 then .ok (a :: b :: rest)
    else if a = id then .ok (b :: a :: rest)
    else (rezorder_up id (b :: rest)).map (a :: ·)
  | _ => .error .outOfBounds

def rezorder_down (id : Int) (z : List Int) : Except Fault (List Int) :=
  match scan (fun a => a == -1 || a == id) z 0 with
  | .error e => .error e
  | .ok i => if 0 < i ∧ z.getD i (-1) ≠ -1 then .ok (swap z (i - 1)) else .ok z

/-- The loop of TOP: the loop of UP, but it goes on after a swap. -/
def rezorder_top (id : Int) : List Int → Except Fault (List Int)
  | a :: b :: rest =>
    if b = -1 then .ok (a :: b :: rest)
    else if a = id then (rezorder_top id (a :: rest)).map (b :: ·)
    else (rezorder_top id (b :: rest)).map (a :: ·)
  | _ => .error .outOfBounds
termination_by z => z.length
decreasing_by all_goals exact Nat.lt_succ_self _

/-- `for (j = 0; j < i; j++) zorder_[j + 1] = zorder_[j];` -/
def shift_back (z : List Int) (i : Nat) : List Int :=
  (List.range i).foldl (fun z j => z.set (j + 1) (z.getD j (-1))) z

def rezorder_bottom (id : Int) (z : List Int) : Except Fault (List Int) :=
  match scan (fun a => a == -1 || a == id) z 0 with
  | .error e => .error e
  | .ok i => if z.getD i (-1) ≠ -1 then .ok ((shift_back z i).set 0 id) else .ok z

def CTX.rezorder (m : CTX) (id : Int) (oper : ZOrderOper) : Except Fault (Int × CTX) :=
  if id < 0 ∨ MAX_CHANNELS ≤ id then .ok (-1, m)
  else
    let zorder := match oper with
      | .UP => rezorder_up id m.zorder_
      | .DOWN => rezorder_down id m.zorder_
      | .TOP => rezorder_top id m.zorder_
      | .BOTTOM => rezorder_bottom id m.zorder_
    match zorder with
    | .error e => .error e
    | .ok z => .ok (0, { m with zorder_ := z })

/-! ## A run of the mixer -/

/-- A call on the mixer. -/
inductive Op
  | get_channel
  | free_channel (cid : Int)
  | set_channel_desc (desc : ChannelDesc)
  | rezorder (id : Int) (oper : ZOrderOper)

def CTX.call (m : CTX) : Op → Except Fault (Int × CTX)
  | .get_channel => m.get_channel
  | .free_channel cid => m.free_channel cid
  | .set_channel_desc desc => m.set_channel_desc desc
  | .rezorder id oper => m.rezorder id oper

/-- The state after a call. -/
def step (m : CTX) (op : Op) : Except Fault CTX := (m.call op).map (·.2)

end zonekey_mcu.video_mixer
