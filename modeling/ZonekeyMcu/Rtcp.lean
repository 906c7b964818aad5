-- The RTCP packets that the ORTP library parses. A compound packet is one block of bytes, and a
-- parser steps through its packets by the lengths in their headers.
import ZonekeyMcu.Fault
import ZonekeyMcu.Lib.BigEndian

open big_endian

namespace zonekey_mcu.rtcp

/-! ## The parser -/

/-- The bytes of a `mblk_t` from `b_rptr` to `b_wptr`. -/
abbrev Mblk := List UInt8

def RTCP_SR : Nat := 200
def RTCP_RR : Nat := 201

/-- `sizeof(report_block_t)`. -/
def RTCP_REPORT_BLOCK_SIZE : Nat := 24

structure CommonHeader where
  rc : Nat
  packet_type : Nat
  length : Nat

def rtcp_get_common_header : Mblk → Option CommonHeader
  | b :: pt :: hi :: lo :: _ =>
    some { rc := b.toNat % 32, packet_type := pt.toNat, length := value_of [hi, lo] }
  | _ => none

/-- `none` is -1. -/
def rtcp_get_size (m : Mblk) : Option Nat :=
  (rtcp_get_common_header m).map fun ch => (1 + ch.length) * 4

/-- The bytes of the next packet, if there are more. -/
def rtcp_next_packet (m : Mblk) : Option Mblk :=
  match rtcp_get_size m with
  | none => none
  | some nextlen => if nextlen < m.length then some (m.drop nextlen) else none

/-- `type` and the least size of a packet. -/
def is_report (type size : Nat) (m : Mblk) : Bool :=
  match rtcp_get_common_header m with
  | none => false
  | some ch => ch.packet_type = type && size ≤ m.length

/-- An SR with no report block. -/
def rtcp_is_SR (m : Mblk) : Bool := is_report RTCP_SR 28 m

/-- An RR with one report block. -/
def rtcp_is_RR (m : Mblk) : Bool := is_report RTCP_RR 32 m

/-- The place of report block `idx` behind `header` bytes, if it lies in the packet. -/
def get_report_block (header : Nat) (m : Mblk) (idx : Nat) : Option Nat :=
  match rtcp_get_size m with
  | none => none
  | some size =>
    let rb := header + RTCP_REPORT_BLOCK_SIZE * idx
    if rb + RTCP_REPORT_BLOCK_SIZE ≤ size then some rb else none

def rtcp_SR_get_report_block (m : Mblk) (idx : Nat) : Option Nat := get_report_block 28 m idx

def rtcp_RR_get_report_block (m : Mblk) (idx : Nat) : Option Nat := get_report_block 8 m idx

/-- `ntohl` of the word at `off`. -/
def word (m : Mblk) (off : Nat) : Except Fault Nat :=
  if off + 4 ≤ m.length then .ok (value_of ((m.drop off).take 4)) else .error .outOfBounds

/-! ## Well-formed packets -/

/-- Any 24 bytes are a report block. -/
structure Block where
  bytes : List UInt8
  size : bytes.length = RTCP_REPORT_BLOCK_SIZE

/-- A sender report (`sr`) or a receiver report, or a packet of another type. `flags` are the
version and the padding bit, and `rest` is what a profile adds. -/
inductive Packet
  | report (sr : Bool) (flags : Nat) (head : List UInt8) (blocks : List Block)
    (rest : List UInt8)
  | other (flags count packet_type : Nat) (body : List UInt8)

/-- A header and what follows it. -/
def with_header (flags count packet_type : Nat) (body : List UInt8) : List UInt8 :=
  UInt8.ofNat (32 * flags + count) :: UInt8.ofNat packet_type ::
    bytes_of 2 (body.length / 4) ++ body

def Packet.body : Packet → List UInt8
  | .report _ _ head blocks rest => head ++ (blocks.flatMap Block.bytes ++ rest)
  | .other _ _ _ body => body

def Packet.bytes (p : Packet) : List UInt8 :=
  match p with
  | .report sr flags _ blocks _ =>
    with_header flags blocks.length (if sr then RTCP_SR else RTCP_RR) p.body
  | .other flags count packet_type _ => with_header flags count packet_type p.body

/-- The head is the sender, and in a sender report the sender info, too. -/
structure Packet.WellFormed (p : Packet) : Prop where
  words : p.body.length % 4 = 0
  length : p.body.length / 4 < 65536
  fields : match p with
    | .report sr flags head blocks _ =>
      flags < 8 ∧ blocks.length < 32 ∧ head.length = if sr then 24 else 4
    | .other flags count packet_type _ =>
      flags < 8 ∧ count < 32 ∧ packet_type < 256 ∧ packet_type ≠ RTCP_SR ∧ packet_type ≠ RTCP_RR

def bytes_of_packets (packets : List Packet) : Mblk := packets.flatMap Packet.bytes

/-- A compound packet. -/
structure Compound where
  packets : List Packet
  well_formed : ∀ p ∈ packets, p.WellFormed

def Compound.bytes (c : Compound) : Mblk := bytes_of_packets c.packets

/-! ## A header -/

section

variable {count packet_type : Nat} {body : List UInt8}

theorem length_with_header (flags count packet_type : Nat) (body : List UInt8) :
    (with_header flags count packet_type body).length = 4 + body.length := by
  simp [with_header]
  omega

/-- The parser reads the header that is there. -/
theorem header_of (flags : Nat) (hcount : count < 32) (htype : packet_type < 256)
    (hlen : body.length / 4 < 65536) (tail : List UInt8) :
    rtcp_get_common_header (with_header flags count packet_type body ++ tail) =
      some { rc := count, packet_type := packet_type, length := body.length / 4 } := by
  have hfirst : (UInt8.ofNat (32 * flags + count)).toNat % 32 = count := by
    have : (UInt8.ofNat (32 * flags + count)).toNat = (32 * flags + count) % 256 :=
      UInt8.toNat_ofNat
    omega
  have hsecond : (UInt8.ofNat packet_type).toNat = packet_type := by
    have : (UInt8.ofNat packet_type).toNat = packet_type % 256 := UInt8.toNat_ofNat
    omega
  have hvalue := value_of_bytes_of_lt (n := 2) hlen
  simp only [with_header, bytes_of, List.cons_append, List.nil_append, rtcp_get_common_header,
    hfirst, hsecond]
  simp only [bytes_of] at hvalue
  rw [hvalue]

end

section

variable {p : Packet}

theorem Packet.length_bytes (p : Packet) : p.bytes.length = 4 + p.body.length := by
  cases p with
  | report => exact length_with_header _ _ _ _
  | other => exact length_with_header _ _ _ _

/-- The number and the type in the header. -/
def Packet.count : Packet → Nat
  | .report _ _ _ blocks _ => blocks.length
  | .other _ count _ _ => count

def Packet.type : Packet → Nat
  | .report sr _ _ _ _ => if sr then RTCP_SR else RTCP_RR
  | .other _ _ packet_type _ => packet_type

theorem Packet.WellFormed.header (h : p.WellFormed) (tail : List UInt8) :
    rtcp_get_common_header (p.bytes ++ tail) =
      some { rc := p.count, packet_type := p.type, length := p.body.length / 4 } := by
  cases p with
  | report sr flags head blocks rest =>
    refine header_of flags h.fields.2.1 ?_ h.length tail
    cases sr with
    | true => decide
    | false => decide
  | other flags count packet_type body =>
    exact header_of flags h.fields.2.1 h.fields.2.2.1 h.length tail

theorem Packet.WellFormed.get_size (h : p.WellFormed) (tail : List UInt8) :
    rtcp_get_size (p.bytes ++ tail) = some p.bytes.length := by
  have hwords := h.words
  simp only [rtcp_get_size, h.header, Option.map_some, p.length_bytes, Option.some.injEq]
  omega

/-- The step to the next packet of a compound packet. -/
theorem Packet.WellFormed.next_packet (h : p.WellFormed) (tail : List UInt8) :
    rtcp_next_packet (p.bytes ++ tail) = if tail = [] then none else some tail := by
  simp only [rtcp_next_packet, h.get_size, List.length_append, List.drop_left]
  cases tail with
  | nil => simp
  | cons b tail => simp

theorem Packet.WellFormed.is_report (h : p.WellFormed) (type size : Nat) (tail : List UInt8) :
    rtcp.is_report type size (p.bytes ++ tail) =
      (decide (p.type = type) && decide (size ≤ p.bytes.length + tail.length)) := by
  simp only [rtcp.is_report, h.header, List.length_append]

theorem Packet.WellFormed.get_report_block (h : p.WellFormed) (header idx : Nat)
    (tail : List UInt8) :
    rtcp.get_report_block header (p.bytes ++ tail) idx =
      if header + 24 * idx + 24 ≤ p.bytes.length then some (header + 24 * idx) else none := by
  simp only [rtcp.get_report_block, h.get_size]
  rfl

end

theorem word_ok {m : Mblk} {off : Nat} (h : off + 4 ≤ m.length) :
    word m off = .ok (value_of ((m.drop off).take 4)) := if_pos h

end zonekey_mcu.rtcp
