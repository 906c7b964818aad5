-- Frames of H.264 as bytes with start codes. `SinkBase::cb_data` makes such a frame from
-- the NAL units of `SinkH264`. The FLV writer and the H.264 source take it apart again,
-- with one search for the start code that reads four bytes at a time.
import ZonekeyMcu.Lib.BigEndian
import ZonekeyMcu.Fault

namespace zonekey_mcu.annexb

open big_endian

/-! ## The search for a start code -/

/-- `data[p]`, which has to be inside the data. -/
def byte (data : List UInt8) (p : Nat) : Except Fault UInt8 :=
  match data[p]? with
  | some b => .ok b
  | none => .error .outOfBounds

/-- `p[0] == 0 && p[1] == 0 && p[2] == 1`. -/
def startcode_at (data : List UInt8) (p : Nat) : Except Fault Bool := do
  let b0 ← byte data p
  if b0 ≠ 0 then return false
  else do
    let b1 ← byte data (p + 1)
    if b1 ≠ 0 then return false
    else do
      let b2 ← byte data (p + 2)
      return b2 = 1

/-- `n` turns of a loop that moves `p` by one. -/
def scan_bytes (data : List UInt8) : Nat → Nat → Except Fault (Option Nat)
  | 0, _ => .ok none
  | n + 1, p => do
    let found ← startcode_at data p
    if found then return some p else scan_bytes data n (p + 1)

/-- Four bytes as the processor loads them. -/
def word (b0 b1 b2 b3 : UInt8) : UInt32 :=
  UInt32.ofNat (b0.toNat + 256 * b1.toNat + 65536 * b2.toNat + 16777216 * b3.toNat)

/-- The test for a word with a zero byte. -/
def has_zero (x : UInt32) : Bool := (x - 0x01010101) &&& ~~~x &&& 0x80808080 != 0

/-- The part of a word's turn for a start code at `p + 2` or `p + 3`. -/
def startcode_over_word (data : List UInt8) (p : Nat) (b2 b3 : UInt8) :
    Except Fault (Option Nat) :=
  if b3 = 0 then do
    let b4 ← byte data (p + 4)
    if b2 = 0 ∧ b4 = 1 then return some (p + 2)
    else if b4 = 0 then do
      let b5 ← byte data (p + 5)
      if b5 = 1 then return some (p + 3) else return none
    else return none
  else return none

/-- One turn of the loop over words. -/
def startcode_in_word (data : List UInt8) (p : Nat) : Except Fault (Option Nat) := do
  let b0 ← byte data p
  let b1 ← byte data (p + 1)
  let b2 ← byte data (p + 2)
  let b3 ← byte data (p + 3)
  if has_zero (word b0 b1 b2 b3) then
    if b1 = 0 ∧ b0 = 0 ∧ b2 = 1 then return some p
    else if b1 = 0 ∧ b2 = 0 ∧ b3 = 1 then return some (p + 1)
    else startcode_over_word data p b2 b3
  else return none

/-- `n` turns of a loop that moves `p` by four. -/
def scan_words (data : List UInt8) : Nat → Nat → Except Fault (Option Nat)
  | 0, _ => .ok none
  | n + 1, p => do
    match ← startcode_in_word data p with
    | some q => return some q
    | none => scan_words data n (p + 4)

/-- The search from `p` to the end of the data, which starts at the address `base`. The
bytes up to an aligned address come first, then the words, then the bytes that are left. -/
def find_startcode (base : Nat) (data : List UInt8) (p : Nat) : Except Fault Nat := do
  let tail : Int := data.length
  -- p + 4 - ((intptr_t)p & 3)
  let a : Int := (p + 4 : Int) - ((base + p) % 4 : Nat)
  let n := (min a (tail - 3) - p).toNat
  match ← scan_bytes data n p with
  | some q => return q
  | none =>
    let p := p + n
    let n := ((tail - 6 - p + 3) / 4).toNat
    match ← scan_words data n p with
    | some q => return q
    | none =>
      let p := p + 4 * n
      match ← scan_bytes data (tail - 3 - p).toNat p with
      | some q => return q
      | none => return data.length

/-- The search of the FLV writer. -/
def avc_find_startcode := find_startcode

/-- The search of the H.264 source. -/
def ff_avc_find_startcode_internal := find_startcode

/-! ## The FLV writer -/

/-- `while (!*(p++));` over the bytes from `p` on. -/
def skip_zeros : List UInt8 → Nat → Except Fault Nat
  | [], _ => .error .outOfBounds
  | b :: bs, p => if b = 0 then skip_zeros bs (p + 1) else .ok (p + 1)

/-- Bytes that are written behind those of a buffer of `room` bytes. -/
def put (room : Nat) (pbuf bytes : List UInt8) : Except Fault (List UInt8) :=
  if pbuf.length + bytes.length ≤ room then .ok (pbuf ++ bytes) else .error .outOfBounds

/-- The bytes from `p` up to `q`. -/
def slice (data : List UInt8) (p q : Nat) : List UInt8 := (data.drop p).take (q - p)

/-- The `while (nal_start < end)` of `avc_parse_nal_units`. Every turn moves `nal_start`
on, so the length of the data is enough fuel. -/
def avc_parse_loop (base : Nat) (data : List UInt8) (room : Nat) :
    Nat → Nat → List UInt8 → Except Fault (List UInt8)
  | fuel, nal_start, pbuf =>
    if nal_start < data.length then
      match fuel with
      | 0 => .error .neverReturns
      | fuel + 1 => do
        let nal_start ← skip_zeros (data.drop nal_start) nal_start
        let nal_end ← avc_find_startcode base data nal_start
        let nal := slice data nal_start nal_end
        let pbuf ← put room pbuf (bytes_of 4 nal.length)
        let pbuf ← put room pbuf nal
        avc_parse_loop base data room fuel nal_end pbuf
    else .ok pbuf

/-- The bytes of the buffer that is made, up to `*size`. -/
def avc_parse_nal_units (base : Nat) (data : List UInt8) : Except Fault (List UInt8) := do
  let nal_start ← avc_find_startcode base data 0
  -- FIXME: 512
  avc_parse_loop base data (data.length + 512) data.length nal_start []

/-! ## The H.264 source -/

/-- `while (p < tail && !*(p++));`. -/
def skip_zeros_to_tail : List UInt8 → Nat → Nat
  | [], p => p
  | b :: bs, p => if b = 0 then skip_zeros_to_tail bs (p + 1) else p + 1

/-- The `for (;;)` of `annexb2queue`. -/
def annexb_loop (base : Nat) (data : List UInt8) :
    Nat → Nat → Except Fault (List (List UInt8))
  | fuel, nal_start =>
    let nal_start := skip_zeros_to_tail (data.drop nal_start) nal_start
    if nal_start = data.length then .ok []
    else match fuel with
      | 0 => .error .neverReturns
      | fuel + 1 => do
        let nal_end ← ff_avc_find_startcode_internal base data nal_start
        let queue ← annexb_loop base data fuel nal_end
        return slice data nal_start nal_end :: queue

def annexb2queue (base : Nat) (data : List UInt8) : Except Fault (List (List UInt8)) := do
  let nal_start ← ff_avc_find_startcode_internal base data 0
  annexb_loop base data data.length nal_start

/-! ## The sink -/

namespace SinkH264

def size_for (index : Nat) (m : List UInt8) : Nat :=
  if index = 0 then m.length + 4 else m.length + 3

/-- The bytes that are written. -/
def save_for (index : Nat) (m : List UInt8) : List UInt8 :=
  if index = 0 then 0 :: 0 :: 0 :: 1 :: m else 0 :: 0 :: 1 :: m

/-- The first unit is a SPS. -/
def is_key (m : List UInt8) : Except Fault Bool := do
  let b ← byte m 0
  return b = 0x67

end SinkH264

structure SinkBase where
  first_frame_ : Bool
  last_stamp_ : UInt32
  /-- The units that `post_handle` has given. -/
  queue_ : List (List UInt8)

/-- The loop of `cb_data`: the buffer with `off` bytes in use, and the key flag. A frame
whose stamp went back is left in the middle, and the callback gets nothing. -/
def cb_data_loop (st : UInt32) :
    SinkBase → Nat → List UInt8 → Nat → Bool → List (List UInt8) →
      Except Fault (SinkBase × Option (List UInt8 × Nat × Bool))
  | s, _, obuf, off, key, [] => .ok ({ s with queue_ := [] }, some (obuf, off, key))
  | s, index, obuf, off, key, om :: queue => do
    let dlen := SinkH264.size_for index om
    -- the buffer has off + dlen bytes now
    let obuf ← put (off + dlen) (obuf.take off) (SinkH264.save_for index om)
    let key ← if index = 0 then SinkH264.is_key om else .ok key
    if s.first_frame_ = false ∧ st - s.last_stamp_ > 0x80000000 then
      return ({ s with queue_ := queue }, none)
    else
      cb_data_loop st { s with first_frame_ := false, last_stamp_ := st } (index + 1) obuf
        (off + dlen) key queue

/-- The frame that the callback gets, with its key flag. -/
def cb_data (s : SinkBase) (st : UInt32) :
    Except Fault (SinkBase × Option (List UInt8 × Bool)) := do
  match ← cb_data_loop st s 0 [] 0 false s.queue_ with
  | (s, none) => return (s, none)
  | (s, some (obuf, off, key)) =>
    if off = 0 then return (s, none) else return (s, some (obuf.take off, key))

end zonekey_mcu.annexb
