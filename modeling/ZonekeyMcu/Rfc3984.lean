-- H.264 over RTP: `rfc3984_pack` puts the NAL units of a frame into packets, and
-- `rfc3984_unpack` takes them out again. A small unit travels alone or with others in
-- one STAP-A packet, and a unit over the limit travels as FU-A fragments.
import ZonekeyMcu.Lib.BigEndian
import ZonekeyMcu.Fault

namespace zonekey_mcu.rfc3984

open big_endian

def TYPE_FU_A : UInt8 := 28
def TYPE_STAP_A : UInt8 := 24

def nal_header_init (nri type : UInt8) : UInt8 := ((nri &&& 3) <<< 5) ||| (type &&& 31)

def nal_header_get_type (h : UInt8) : UInt8 := h &&& 31

def nal_header_get_nri (h : UInt8) : UInt8 := (h >>> 5) &&& 3

/-- A packet: the bytes of the message with its timestamp and its marker. -/
structure Packet where
  payload : List UInt8
  ts : UInt32
  marker : Bool
  deriving DecidableEq

structure Rfc3984Context where
  q : List (List UInt8)
  /-- The fragments of a unit that has not ended. -/
  m : Option (List UInt8)
  maxsz : Int
  last_ts : UInt32
  mode : Nat
  stap_a_allowed : Bool
  deriving DecidableEq

def rfc3984_init (payload_max_size : Int) : Rfc3984Context :=
  { q := [], m := none, maxsz := payload_max_size, last_ts := 0x943FEA43, mode := 0,
    stap_a_allowed := false }

/-! ## The sender -/

/-- `htons` of the low 16 bits of a size. -/
def put_nal_size (sz : Nat) : List UInt8 := bytes_of 2 sz

/-- The first byte of a message. -/
def header (m : List UInt8) : Except Fault UInt8 :=
  match m with
  | [] => .error .outOfBounds
  | h :: _ => .ok h

def prepend_stapa (m : List UInt8) : Except Fault (List UInt8) := do
  let h ← header m
  return nal_header_init (nal_header_get_nri h) TYPE_STAP_A :: (put_nal_size m.length ++ m)

def concat_nalus (m1 m2 : List UInt8) : Except Fault (List UInt8) := do
  let h ← header m1
  let m1 ← if nal_header_get_type h ≠ TYPE_STAP_A then prepend_stapa m1 else .ok m1
  return m1 ++ (put_nal_size m2.length ++ m2)

def fu_header (start fin : Bool) (type : UInt8) : UInt8 :=
  ((if start then (1 : UInt8) else 0) <<< 7) ||| ((if fin then (1 : UInt8) else 0) <<< 6) ||| type

/-- The first fragment leaves the header of the unit out. -/
def prepend_fu_indicator_and_header (m : List UInt8) (indicator : UInt8) (start fin : Bool)
    (type : UInt8) : List UInt8 :=
  indicator :: fu_header start fin type :: (if start then m.drop 1 else m)

/-- The `while` of `frag_nalu_and_send`, and the last packet after it. The length of
the unit is enough fuel when a fragment has room for a byte. -/
def frag_loop (ts : UInt32) (fu_indicator type : UInt8) (payload_max_size : Int) (marker : Bool) :
    Nat → Bool → List UInt8 → Except Fault (List Packet)
  | fuel, start, nalu =>
    if payload_max_size < nalu.length then
      -- the read pointer goes back, before the unit
      if payload_max_size < 0 then .error .outOfBounds
      else match fuel with
        | 0 => .error .neverReturns
        | fuel + 1 => do
          let m := nalu.take payload_max_size.toNat
          let rest ← frag_loop ts fu_indicator type payload_max_size marker fuel false
            (nalu.drop payload_max_size.toNat)
          return ⟨prepend_fu_indicator_and_header m fu_indicator start false type, ts, false⟩ ::
            rest
    else
      .ok [⟨prepend_fu_indicator_and_header nalu fu_indicator false true type, ts, marker⟩]

def frag_nalu_and_send (ts : UInt32) (nalu : List UInt8) (marker : Bool) (maxsize : Int) :
    Except Fault (List Packet) := do
  let h ← header nalu
  frag_loop ts (nal_header_init (nal_header_get_nri h) TYPE_FU_A) (nal_header_get_type h)
    (maxsize - 2) marker nalu.length true nalu

def rfc3984_pack_mode_0 (ts : UInt32) : List (List UInt8) → List Packet
  | [] => []
  | m :: naluq => ⟨m, ts, naluq.isEmpty⟩ :: rfc3984_pack_mode_0 ts naluq

/-- A unit that is not aggregated: whole, or in fragments. -/
def send_nal (ctx : Rfc3984Context) (ts : UInt32) (m : List UInt8) (fin : Bool) :
    Except Fault (List Packet) :=
  if ctx.maxsz < m.length then frag_nalu_and_send ts m fin ctx.maxsz
  else .ok [⟨m, ts, fin⟩]

/-- The message that waits for more units, with its size `prevsz`. -/
abbrev Pending := Option (List UInt8 × Int)

/-- A unit that meets no message: the packets that it gives, or the message that waits. -/
def hold_or_send (ctx : Rfc3984Context) (ts : UInt32) (m : List UInt8) (fin : Bool) :
    Except Fault (List Packet × Pending) :=
  if (m.length : Int) < ctx.maxsz.tdiv 2 then .ok ([], some (m, m.length + 3))
  else do
    let packets ← send_nal ctx ts m fin
    return (packets, none)

/-- The body of the loop of `rfc3984_pack_mode_1`. -/
def pack_nal (ctx : Rfc3984Context) (ts : UInt32) (prevm : Pending) (m : List UInt8)
    (fin : Bool) : Except Fault (List Packet × Pending) :=
  if ctx.stap_a_allowed then
    match prevm with
    | some (prevm, prevsz) =>
      if prevsz + m.length < ctx.maxsz - 2 then do
        let prevm ← concat_nalus prevm m
        return ([], some (prevm, prevsz + (m.length + 2)))
      else do
        let (packets, prevm') ← hold_or_send ctx ts m fin
        return (⟨prevm, ts, false⟩ :: packets, prevm')
    | none => hold_or_send ctx ts m fin
  else do
    let packets ← send_nal ctx ts m fin
    return (packets, prevm)

def rfc3984_pack_mode_1 (ctx : Rfc3984Context) (ts : UInt32) :
    Pending → List (List UInt8) → Except Fault (List Packet)
  | none, [] => .ok []
  | some (prevm, _), [] => .ok [⟨prevm, ts, true⟩]
  | prevm, m :: naluq => do
    let (packets, prevm) ← pack_nal ctx ts prevm m naluq.isEmpty
    let rest ← rfc3984_pack_mode_1 ctx ts prevm naluq
    return packets ++ rest

/-- The packets that are put into the RTP queue. -/
def rfc3984_pack (ctx : Rfc3984Context) (naluq : List (List UInt8)) (ts : UInt32) :
    Except Fault (List Packet) :=
  if ctx.mode = 0 then .ok (rfc3984_pack_mode_0 ts naluq)
  else if ctx.mode = 1 then rfc3984_pack_mode_1 ctx ts none naluq
  -- an unsupported mode is only logged
  else .ok []

/-! ## The receiver -/

/-- The units of a STAP-A packet. A size over the end of the packet stops the loop. The
length of the packet is enough fuel. -/
def split_stapa : Nat → List UInt8 → Except Fault (List (List UInt8))
  | _, [] => .ok []
  | _, [_] => .error .outOfBounds
  | 0, _ => .error .neverReturns
  | fuel + 1, b0 :: b1 :: p =>
    let sz := value_of [b0, b1]
    if p.length < sz then .ok []
    else do
      let nals ← split_stapa fuel (p.drop sz)
      return p.take sz :: nals

def aggregate_fua (ctx : Rfc3984Context) (im : List UInt8) :
    Except Fault (Rfc3984Context × Option (List UInt8)) :=
  match im with
  | indicator :: fu_header :: body =>
    let type := nal_header_get_type fu_header
    let start := fu_header >>> 7 != 0
    let fin := (fu_header >>> 6) &&& 1 != 0
    let m :=
      if start then some (nal_header_init (nal_header_get_nri indicator) type :: body)
      -- a fragment without its start is freed
      else ctx.m.map (· ++ body)
    if fin then .ok ({ ctx with m := none }, m) else .ok ({ ctx with m }, none)
  | _ => .error .outOfBounds

/-- What a packet adds to the queue of its frame. -/
def receive (ctx : Rfc3984Context) (im : List UInt8) : Except Fault Rfc3984Context := do
  let h ← header im
  if nal_header_get_type h = TYPE_STAP_A then do
    let nals ← split_stapa im.length im.tail
    return { ctx with q := ctx.q ++ nals }
  else if nal_header_get_type h = TYPE_FU_A then do
    let (ctx, o) ← aggregate_fua ctx im
    return { ctx with q := ctx.q ++ o.toList }
  else
    return { ctx with m := none, q := ctx.q ++ [im] }

/-- A packet of a new frame: the units of the frame before it are output now, unless a
fragmented unit is not finished. -/
def start_frame (ctx : Rfc3984Context) (ts : UInt32) : Rfc3984Context × List (List UInt8) :=
  if ctx.last_ts ≠ ts then
    if ctx.m.isNone then ({ ctx with last_ts := ts, q := [] }, ctx.q)
    else ({ ctx with last_ts := ts }, [])
  else (ctx, [])

/-- The units that the marker puts out. -/
def end_frame (ctx : Rfc3984Context) (im : Packet) : Rfc3984Context × List (List UInt8) :=
  if im.marker then ({ ctx with last_ts := im.ts, q := [] }, ctx.q) else (ctx, [])

/-- The receiver after a packet, and the units that it puts out. -/
def rfc3984_unpack (ctx : Rfc3984Context) (im : Packet) :
    Except Fault (Rfc3984Context × List (List UInt8)) := do
  let (ctx, before) := start_frame ctx im.ts
  let ctx ← receive ctx im.payload
  let (ctx, after) := end_frame ctx im
  return (ctx, before ++ after)

/-- The packets of a queue, one after the other. -/
def unpack_all : Rfc3984Context → List Packet →
    Except Fault (Rfc3984Context × List (List UInt8))
  | ctx, [] => .ok (ctx, [])
  | ctx, im :: packets => do
    let (ctx, out) ← rfc3984_unpack ctx im
    let (ctx, rest) ← unpack_all ctx packets
    return (ctx, out ++ rest)

/-! ## NAL units -/

/-- A NAL unit that is not itself a packet of this format: the forbidden bit is 0, and
the type is neither STAP-A nor FU-A. -/
def nal_unit : List UInt8 → Prop
  | [] => False
  | h :: _ => h &&& 0x80 = 0 ∧ nal_header_get_type h ≠ TYPE_STAP_A ∧
      nal_header_get_type h ≠ TYPE_FU_A

example : rfc3984_pack { rfc3984_init 4 with mode := 1 } [[0x65, 1, 2, 3, 4]] 9 =
    .ok [⟨[0x7C, 0x85, 1], 9, false⟩, ⟨[0x7C, 0x05, 2, 3], 9, false⟩,
      ⟨[0x7C, 0x45, 4], 9, true⟩] := by decide

end zonekey_mcu.rfc3984
