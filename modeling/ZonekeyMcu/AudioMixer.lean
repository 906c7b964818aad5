-- The audio mixer filter. Each tick takes one tick of samples from each linked
-- input, sums all of them, and gives each output the sum without its own input.
import ZonekeyMcu.Bufferizer

open zonekey_mcu.bufferizer

namespace zonekey_mcu.audio_mixer

/-- `ZONEKEY_AUDIO_MIXER_MAX_CHANNELS`. -/
def MIXER_MAX_CHANNELS : Nat := 20

/-- `ZONEKEY_AUDIO_MIXER_PREVIEW_PIN`: the output of the mix for the publisher. -/
def PREVIEW_PIN : Nat := MIXER_MAX_CHANNELS - 1

/-- The milliseconds of a tick. -/
def TICKER_INTERVAL : Nat := 10

/-! ## Samples -/

/-- The 16-bit sample in two bytes, the low byte first. -/
def int16 (lo hi : UInt8) : Int :=
  let v : Int := lo.toNat + 256 * hi.toNat
  if v < 32768 then v else v - 65536

def words : Bytes → List Int
  | lo :: hi :: rest => int16 lo hi :: words rest
  | _ => []

def word_bytes (s : Int) : Bytes :=
  let v := (s % 65536).toNat
  [UInt8.ofNat (v % 256), UInt8.ofNat (v / 256)]

def bytes_of_words (xs : List Int) : Bytes := xs.flatMap word_bytes

/-- A value as the 32-bit accumulator holds it. -/
def wrap32 (n : Int) : Int := (n + 2147483648) % 4294967296 - 2147483648

def accumulate (sum contrib : List Int) : List Int :=
  List.zipWith (fun s c => wrap32 (s + c)) sum contrib

def saturate (s : Int) : Int :=
  if s > 32767 then 32767
  else if s < -32767 then -32767
  else s

/-- The bits of the float 1.0. -/
def GAIN_ONE : UInt32 := 0x3F800000

/-- `fmul gain s` stands for `(int)(gain * (float)s)`. -/
def apply_gain (fmul : UInt32 → Int → Int) (gain : UInt32) (samples : List Int) : List Int :=
  samples.map fun s => saturate (fmul gain s)

/-! ## A channel -/

/-- `input` holds the samples of this tick. The gain is the bits of the float. -/
structure Channel where
  bufferizer : MSBufferizer
  input : List Int
  gain : UInt32
  active : Bool

def channel_init : Channel where
  bufferizer := ms_bufferizer_init
  input := []
  gain := GAIN_ONE
  active := true

def channel_prepare (chan : Channel) (bytes_per_tick : Nat) : Channel :=
  { chan with input := List.replicate (bytes_per_tick / 2) 0 }

def channel_unprepare (chan : Channel) : Channel := { chan with input := [] }

/-- The channel and the sum after the input was read. The input queue is empty
then. -/
def channel_process_in (fmul : UInt32 → Int → Int) (chan : Channel) (q : MSQueue)
    (sum : List Int) (nsamples : Nat) : Except Fault (Nat × Channel × List Int) :=
  match ms_bufferizer_read (ms_bufferizer_put_from_queue chan.bufferizer q) (nsamples * 2) with
  | .error e => .error e
  | .ok (n, data, bufferizer) =>
    let chan := { chan with bufferizer }
    if n ≠ 0 then
      let chan := { chan with input := words data }
      if chan.active then
        let chan :=
          if chan.gain ≠ GAIN_ONE then
            { chan with input := apply_gain fmul chan.gain chan.input }
          else chan
        .ok (nsamples, chan, accumulate sum chan.input)
      else .ok (nsamples, chan, sum)
    else .ok (0, { chan with input := List.replicate nsamples 0 }, sum)

def channel_process_out (chan : Channel) (sum : List Int) : mblk_t :=
  let out :=
    if chan.active then List.zipWith (fun s c => saturate (wrap32 (s - c))) sum chan.input
    else sum.map saturate
  { data := bytes_of_words out, b_cont := [] }

/-! ## The filter -/

structure MixerState where
  nchannels : Nat
  rate : Nat
  purgeoffset : Nat
  bytespertick : Nat
  channels : Nat → Channel
  sum : List Int
  conf_mode : Int

/-- The filter, the queues that are linked to its pins, and whether a ticker
runs it. -/
structure MSFilter where
  data : MixerState
  inputs : Nat → Option MSQueue
  outputs : Nat → Option MSQueue
  attached : Bool

def mixer_init : MixerState where
  nchannels := 1
  rate := 16000
  purgeoffset := 0
  bytespertick := 0
  channels := fun _ => channel_init
  sum := []
  conf_mode := 1

def MSFilter.new : MSFilter where
  data := mixer_init
  inputs := fun _ => none
  outputs := fun _ => none
  attached := false

/-- `MAX_LATENCY` is 0.08 seconds. -/
def mixer_preprocess (s : MixerState) : MixerState :=
  let bytespertick := 2 * s.nchannels * s.rate * TICKER_INTERVAL / 1000
  { s with
    purgeoffset := 8 * (2 * s.nchannels * s.rate) / 100
    bytespertick
    sum := List.replicate (bytespertick / 2) 0
    channels := fun i => channel_prepare (s.channels i) bytespertick }

def mixer_postprocess (s : MixerState) : MixerState :=
  { s with sum := [], channels := fun i => channel_unprepare (s.channels i) }

def MixerState.nwords (s : MixerState) : Nat := s.bytespertick / 2

def MixerState.set_channel (s : MixerState) (i : Nat) (chan : Channel) : MixerState :=
  { s with channels := fun j => if j = i then chan else s.channels j }

/-- A channel that holds too much after its turn is emptied. -/
def purge (purgeoffset : Nat) (chan : Channel) : Channel :=
  if ms_bufferizer_get_avail chan.bufferizer > purgeoffset then
    { chan with bufferizer := ms_bufferizer_flush chan.bufferizer }
  else chan

/-- The turn of input `i` in the first loop. -/
def process_input (fmul : UInt32 → Int → Int) (f : MSFilter) (i : Nat) : Except Fault MSFilter :=
  match f.inputs i with
  | none => .ok f
  | some q =>
    match channel_process_in fmul (f.data.channels i) q f.data.sum f.data.nwords with
    | .error e => .error e
    | .ok (_, chan, sum) => .ok { f with
        data := { f.data.set_channel i (purge f.data.purgeoffset chan) with sum }
        inputs := fun j => if j = i then some [] else f.inputs j }

/-- The first loop of `mixer_process`, up to input `k`. -/
def process_inputs (fmul : UInt32 → Int → Int) (f : MSFilter) : Nat → Except Fault MSFilter
  | 0 => .ok f
  | k + 1 => match process_inputs fmul f k with
    | .error e => .error e
    | .ok f => process_input fmul f k

/-- The second loop: each linked output gets its own message. -/
def process_outputs (f : MSFilter) : MSFilter :=
  { f with outputs := fun i =>
      if i < MIXER_MAX_CHANNELS then
        (f.outputs i).map fun q =>
          ms_queue_put q (channel_process_out (f.data.channels i) f.data.sum)
      else f.outputs i }

/-- The `memset` of the sum. -/
def MSFilter.clear_sum (f : MSFilter) : MSFilter :=
  { f with data := { f.data with sum := List.replicate f.data.nwords 0 } }

def mixer_process (fmul : UInt32 → Int → Int) (f : MSFilter) : Except Fault MSFilter :=
  match process_inputs fmul f.clear_sum MIXER_MAX_CHANNELS with
  | .error e => .error e
  | .ok f =>
    -- ALWAYS_STREAMOUT: outputs are written also when nothing came in.
    if f.data.conf_mode = 1 then .ok (process_outputs f) else .error .assertFailed

/-! ## The methods -/

def mixer_set_rate (s : MixerState) (rate : Nat) : MixerState := { s with rate }

def mixer_set_nchannels (s : MixerState) (nchannels : Nat) : MixerState := { s with nchannels }

/-- The two methods that name a pin: the number that the call returns, and the
state. -/
def set_on_pin (s : MixerState) (pin : Int) (set : Channel → Channel) : Int × MixerState :=
  if pin < 0 ∨ MIXER_MAX_CHANNELS ≤ pin then (-1, s)
  else (0, s.set_channel pin.toNat (set (s.channels pin.toNat)))

def mixer_set_input_gain (s : MixerState) (pin : Int) (gain : UInt32) : Int × MixerState :=
  set_on_pin s pin fun chan => { chan with gain }

def mixer_set_active (s : MixerState) (pin : Int) (active : Bool) : Int × MixerState :=
  set_on_pin s pin fun chan => { chan with active }

/-- The mode that the caller asks for is not used. -/
def mixer_set_conference_mode (s : MixerState) (_ : Int) : MixerState := { s with conf_mode := 1 }

/-! ## A run of the filter -/

/-- What can happen to the filter. The graph changes only while no ticker runs. -/
inductive Op
  | link_input (i : Nat)
  | unlink_input (i : Nat)
  | link_output (i : Nat)
  | unlink_output (i : Nat)
  | attach
  | detach
  | enqueue (i : Nat) (m : mblk_t)
  | drain (i : Nat)
  | tick
  | set_rate (rate : Nat)
  | set_nchannels (nchannels : Nat)
  | set_input_gain (pin : Int) (gain : UInt32)
  | set_active (pin : Int) (active : Bool)
  | set_conference_mode (mode : Int)

/-- The pins of one side, with pin `i` changed. -/
def set_pin (pins : Nat → Option MSQueue) (i : Nat) (q : Option MSQueue) : Nat → Option MSQueue :=
  fun j => if j = i then q else pins j

/-- A link to a pin that has a queue fails, and the queue stays. -/
def linked (q : Option MSQueue) : Option MSQueue := some (q.getD [])

def step (fmul : UInt32 → Int → Int) (f : MSFilter) : Op → Except Fault MSFilter
  | .link_input i =>
    .ok (if f.attached then f else { f with inputs := set_pin f.inputs i (linked (f.inputs i)) })
  | .unlink_input i =>
    .ok (if f.attached then f else { f with inputs := set_pin f.inputs i none })
  | .link_output i =>
    .ok (if f.attached then f else { f with outputs := set_pin f.outputs i (linked (f.outputs i)) })
  | .unlink_output i =>
    .ok (if f.attached then f else { f with outputs := set_pin f.outputs i none })
  | .attach =>
    .ok (if f.attached then f else { f with data := mixer_preprocess f.data, attached := true })
  | .detach =>
    .ok (if f.attached then { f with data := mixer_postprocess f.data, attached := false } else f)
  | .enqueue i m =>
    .ok { f with inputs := set_pin f.inputs i ((f.inputs i).map (ms_queue_put · m)) }
  | .drain i => .ok { f with outputs := set_pin f.outputs i ((f.outputs i).map fun _ => []) }
  | .tick => if f.attached then mixer_process fmul f else .ok f
  | .set_rate rate => .ok { f with data := mixer_set_rate f.data rate }
  | .set_nchannels nchannels => .ok { f with data := mixer_set_nchannels f.data nchannels }
  | .set_input_gain pin gain => .ok { f with data := (mixer_set_input_gain f.data pin gain).2 }
  | .set_active pin active => .ok { f with data := (mixer_set_active f.data pin active).2 }
  | .set_conference_mode mode => .ok { f with data := mixer_set_conference_mode f.data mode }

end zonekey_mcu.audio_mixer
