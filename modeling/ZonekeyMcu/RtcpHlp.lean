-- The helper that reads the report blocks of an RTCP packet. It keeps a copy of each block, but
-- the handle that it gives for a block is the address of the packet.
import ZonekeyMcu.Rtcp

open zonekey_mcu.rtcp big_endian

namespace zonekey_mcu.rtcp_hlp

/-! ## The copies -/

structure ReportBlock where
  jitter : Nat
  frac_lost : Nat
  cum_lost : Nat
  ssrc : Nat
  deriving DecidableEq, Repr

/-- `it` are the blocks that the iterator has not passed. `type` is 1 for an SR and 2 for an
RR. -/
structure Pkg where
  report_blocks : List ReportBlock
  it : List ReportBlock
  type : Nat
  deriving DecidableEq, Repr

structure CTX where
  pkgs : List Pkg
  it : List Pkg
  deriving DecidableEq, Repr

/-- The macros `report_block_get_..` at `rb`. -/
def read_block (m : Mblk) (rb : Nat) : Except Fault ReportBlock := do
  let jitter ← word m (rb + 12)
  let fl_cnpl ← word m (rb + 4)
  let ssrc ← word m rb
  return { jitter := jitter, frac_lost := fl_cnpl / 2 ^ 24, cum_lost := fl_cnpl % 2 ^ 24
           ssrc := ssrc }

/-- The loop of `parse_report_block` from `i` on, for `n` turns. -/
def parse_from (e : Mblk) : Nat → Nat → Except Fault (List ReportBlock)
  | 0, _ => .ok []
  | n + 1, i =>
    match rtcp_RR_get_report_block e i with
    -- A null pointer is read.
    | none => .error .outOfBounds
    | some rb => do
      let r ← read_block e rb
      let rs ← parse_from e n (i + 1)
      return r :: rs

/-- It is called for an SR and for an RR. -/
def parse_report_block (e : Mblk) (type : Nat) : Except Fault Pkg :=
  match rtcp_get_common_header e with
  | none => .error .outOfBounds
  | some header => (parse_from e header.rc 0).map fun blocks =>
    { report_blocks := blocks, it := blocks, type := type }

/-- The part of a turn of the loop before `rtcp_next_packet`. -/
def parse_packet (evt : Mblk) : Except Fault (List Pkg) :=
  if rtcp_is_SR evt then (parse_report_block evt 1).map ([·])
  else if rtcp_is_RR evt then (parse_report_block evt 2).map ([·])
  else .ok []

/-- The packets of the rest of a compound packet, for at most `fuel` turns. -/
def open_from : Nat → Mblk → Except Fault (List Pkg)
  | 0, _ => .error .neverReturns
  | fuel + 1, evt => do
    let pkgs ← parse_packet evt
    match rtcp_next_packet evt with
    | none => return pkgs
    | some next => return pkgs ++ (← open_from fuel next)

def rtcp_hlp_open (evt : Mblk) : Except Fault CTX :=
  (open_from (evt.length + 1) evt).map fun pkgs => { pkgs := pkgs, it := pkgs }

/-! ## The handles -/

/-- The address of the packet with this number. -/
abbrev Handle := Nat

/-- The packet that comes next, and its handle. -/
def rtcp_hlp_pkg_next (c : CTX) : Option (Handle × Pkg) × CTX :=
  match c.it with
  | [] => (none, c)
  | p :: it => (some (c.pkgs.length - c.it.length, p), { c with it := it })

/-- It returns the handle of the packet. -/
def rtcp_hlp_report_block_next (pkg : Handle) (p : Pkg) : Option Handle × Pkg :=
  match p.it with
  | [] => (none, p)
  | _ :: it => (some pkg, { p with it := it })

/-- The first words of the memory of a packet, as a `ReportBlock` has them. They are pointers
into its vector. -/
abbrev Memory := Handle → Pkg → ReportBlock

def rtcp_hlp_report_block_ssrc (mem : Memory) (rb : Handle) (p : Pkg) : Nat := (mem rb p).ssrc

def rtcp_hlp_report_block_fraction_lost (mem : Memory) (rb : Handle) (p : Pkg) : Nat :=
  (mem rb p).frac_lost

def rtcp_hlp_report_block_cum_lost (mem : Memory) (rb : Handle) (p : Pkg) : Nat :=
  (mem rb p).cum_lost

def rtcp_hlp_report_block_jitter (mem : Memory) (rb : Handle) (p : Pkg) : Nat :=
  (mem rb p).jitter

/-! ## The caller -/

/-- What the four accessors give for a handle. -/
def numbers (mem : Memory) (rb : Handle) (p : Pkg) : ReportBlock where
  jitter := rtcp_hlp_report_block_jitter mem rb p
  frac_lost := rtcp_hlp_report_block_fraction_lost mem rb p
  cum_lost := rtcp_hlp_report_block_cum_lost mem rb p
  ssrc := rtcp_hlp_report_block_ssrc mem rb p

/-- `rtcp_hlp_report_block_next` until it gives 0, for at most `fuel` calls. -/
def read_pkg (mem : Memory) (pkg : Handle) : Nat → Pkg → Except Fault (List ReportBlock)
  | 0, _ => .error .neverReturns
  | fuel + 1, p =>
    match rtcp_hlp_report_block_next pkg p with
    | (none, _) => .ok []
    | (some rb, p) => (read_pkg mem pkg fuel p).map (numbers mem rb p :: ·)

/-- `rtcp_hlp_pkg_next` until it gives 0. -/
def read_all (mem : Memory) : Nat → CTX → Except Fault (List ReportBlock)
  | 0, _ => .error .neverReturns
  | fuel + 1, c =>
    match rtcp_hlp_pkg_next c with
    | (none, _) => .ok []
    | (some (pkg, p), c) => do
      let rs ← read_pkg mem pkg (p.it.length + 1) p
      let rest ← read_all mem fuel c
      return rs ++ rest

/-- What a caller reads out of a packet. -/
def statistics (mem : Memory) (evt : Mblk) : Except Fault (List ReportBlock) := do
  let c ← rtcp_hlp_open evt
  read_all mem (c.it.length + 1) c

/-! ## The property -/

/-- What the bytes of a block say. -/
def block_numbers (b : Block) : ReportBlock where
  jitter := value_of ((b.bytes.drop 12).take 4)
  frac_lost := value_of ((b.bytes.drop 4).take 1)
  cum_lost := value_of ((b.bytes.drop 5).take 3)
  ssrc := value_of (b.bytes.take 4)

def blocks_of : Packet → List Block
  | .report _ _ _ blocks _ => blocks
  | .other _ _ _ _ => []

/-- The numbers of all report blocks of a compound packet, in order. -/
def reports (packets : List Packet) : List ReportBlock :=
  packets.flatMap fun p => (blocks_of p).map block_numbers

/-! ## The reading of the copies -/

section

variable {mem : Memory} {pkg : Handle} {p : Pkg} {c : CTX} {fuel : Nat}
  {rs : List ReportBlock}

/-- As many handles as copies. -/
theorem read_pkg_length (mem : Memory) (pkg : Handle) {fuel : Nat} {p : Pkg}
    (hfuel : p.it.length < fuel) :
    ∃ rs, read_pkg mem pkg fuel p = .ok rs ∧ rs.length = p.it.length := by
  induction fuel generalizing p with
  | zero => exact absurd hfuel (Nat.not_lt_zero _)
  | succ fuel ih =>
    obtain ⟨blocks, it, type⟩ := p
    cases it with
    | nil => exact ⟨[], rfl, rfl⟩
    | cons r it =>
      obtain ⟨rs, hread, hlen⟩ :=
        ih (p := { report_blocks := blocks, it := it, type := type }) (Nat.lt_of_succ_lt_succ hfuel)
      refine ⟨numbers mem pkg { report_blocks := blocks, it := it, type := type } :: rs, ?_,
        congrArg Nat.succ hlen⟩
      simp only [read_pkg, rtcp_hlp_report_block_next, hread, Except.map]

/-- Each number comes out of the memory of the packet. -/
theorem read_pkg_mem (h : read_pkg mem pkg fuel p = .ok rs) :
    ∀ r ∈ rs, ∃ p', r = mem pkg p' := by
  induction fuel generalizing p rs with
  | zero => cases h
  | succ fuel ih =>
    obtain ⟨blocks, it, type⟩ := p
    cases it with
    | nil =>
      cases h
      exact fun r hr => absurd hr List.not_mem_nil
    | cons r it =>
      simp only [read_pkg, rtcp_hlp_report_block_next] at h
      cases hread : read_pkg mem pkg fuel { report_blocks := blocks, it := it, type := type } with
      | error e =>
        rw [hread] at h
        cases h
      | ok rs' =>
        rw [hread] at h
        cases h
        intro r' hr'
        rcases List.mem_cons.mp hr' with rfl | hr'
        · exact ⟨_, rfl⟩
        · exact ih hread r' hr'

theorem read_all_length (mem : Memory) {fuel : Nat} {c : CTX} (hfuel : c.it.length < fuel) :
    ∃ rs, read_all mem fuel c = .ok rs ∧ rs.length = (c.it.flatMap Pkg.it).length := by
  induction fuel generalizing c with
  | zero => exact absurd hfuel (Nat.not_lt_zero _)
  | succ fuel ih =>
    obtain ⟨pkgs, it⟩ := c
    cases it with
    | nil => exact ⟨[], rfl, rfl⟩
    | cons p it =>
      obtain ⟨rs, hread, hlen⟩ := read_pkg_length mem (pkgs.length - (p :: it).length)
        (Nat.lt_succ_self p.it.length)
      obtain ⟨rest, hrest, hlen'⟩ :=
        ih (c := { pkgs := pkgs, it := it }) (Nat.lt_of_succ_lt_succ hfuel)
      refine ⟨rs ++ rest, ?_, ?_⟩
      · simp only [read_all, rtcp_hlp_pkg_next, hread, hrest, ok_bind, pure_eq_ok]
      · simp [hlen, hlen']

theorem read_all_mem (h : read_all mem fuel c = .ok rs) :
    ∀ r ∈ rs, ∃ pkg p', r = mem pkg p' := by
  induction fuel generalizing c rs with
  | zero => cases h
  | succ fuel ih =>
    obtain ⟨pkgs, it⟩ := c
    cases it with
    | nil =>
      cases h
      exact fun r hr => absurd hr List.not_mem_nil
    | cons p it =>
      simp only [read_all, rtcp_hlp_pkg_next] at h
      obtain ⟨rs', hread, h⟩ := bind_ok h
      obtain ⟨rest, hrest, h⟩ := bind_ok h
      cases h
      intro r hr
      rcases List.mem_append.mp hr with hr | hr
      · exact ⟨_, read_pkg_mem hread r hr⟩
      · exact ih hrest r hr

end

/-! ## The copies of a packet -/

section

variable {p : Packet} {e : Mblk} {blocks : List Block}

theorem word_of_block (b : Block) (pre post : List UInt8) {k : Nat} (hk : k + 4 ≤ 24) :
    word (pre ++ (b.bytes ++ post)) (pre.length + k) =
      .ok (value_of ((b.bytes.drop k).take 4)) := by
  have hsize : b.bytes.length = 24 := b.size
  rw [word_ok]
  · rw [← List.drop_drop, List.drop_left, List.drop_append_of_le_length (by omega),
      List.take_append_of_le_length]
    rw [List.length_drop]
    omega
  · simp only [List.length_append]
    omega

/-- The macros give what the bytes say. -/
theorem read_block_of (b : Block) (pre post : List UInt8) :
    read_block (pre ++ (b.bytes ++ post)) pre.length = .ok (block_numbers b) := by
  have hsize : b.bytes.length = 24 := b.size
  have hssrc := word_of_block b pre post (show 0 + 4 ≤ 24 by decide)
  rw [Nat.add_zero, List.drop_zero] at hssrc
  obtain ⟨x, hx⟩ : ∃ x, b.bytes.drop 4 = x :: b.bytes.drop 5 :=
    ⟨_, List.drop_eq_getElem_cons (by omega)⟩
  have hthree : ((b.bytes.drop 5).take 3).length = 3 := by
    rw [List.length_take, List.length_drop]
    omega
  have hdiv := value_of_cons_div x ((b.bytes.drop 5).take 3)
  have hmod := value_of_cons_mod x ((b.bytes.drop 5).take 3)
  rw [hthree] at hdiv hmod
  simp only [read_block, word_of_block b pre post (show 12 + 4 ≤ 24 by decide),
    word_of_block b pre post (show 4 + 4 ≤ 24 by decide), hssrc, ok_bind, pure_eq_ok, hx,
    List.take_succ_cons]
  simp only [block_numbers, hx, List.take_succ_cons, List.take_zero, value_of, List.length_nil,
    Nat.pow_zero, Nat.mul_one, Nat.add_zero, Except.ok.injEq, ReportBlock.mk.injEq, true_and,
    and_true]
  exact ⟨by simpa [value_of] using hdiv, by simpa [value_of] using hmod⟩

/-- The blocks that stand where the accessor of the RR looks for them. -/
theorem parse_from_blocks (blocks : List Block) (pre post : List UInt8) (i : Nat)
    (hpre : pre.length = 8 + 24 * i)
    (hget : ∀ idx < i + blocks.length, rtcp_RR_get_report_block
      (pre ++ (blocks.flatMap Block.bytes ++ post)) idx = some (8 + 24 * idx)) :
    parse_from (pre ++ (blocks.flatMap Block.bytes ++ post)) blocks.length i =
      .ok (blocks.map block_numbers) := by
  induction blocks generalizing pre i with
  | nil => rfl
  | cons b blocks ih =>
    have hsize : b.bytes.length = 24 := b.size
    rw [List.flatMap_cons, List.append_assoc] at hget ⊢
    have hfirst := read_block_of b pre (blocks.flatMap Block.bytes ++ post)
    have hrest := ih (pre ++ b.bytes) (i + 1)
    rw [List.append_assoc] at hrest
    rw [List.length_cons, parse_from, hget i (by simp only [List.length_cons]; omega)]
    dsimp only
    rw [← hpre, hfirst, hrest]
    · rfl
    · simp only [List.length_append]
      omega
    · intro idx hidx
      exact hget idx (by simp only [List.length_cons]; omega)

theorem read_block_room {rb : Nat} (h : rb + 24 ≤ e.length) : ∃ r, read_block e rb = .ok r := by
  refine ⟨{ jitter := value_of ((e.drop (rb + 12)).take 4)
            frac_lost := value_of ((e.drop (rb + 4)).take 4) / 2 ^ 24
            cum_lost := value_of ((e.drop (rb + 4)).take 4) % 2 ^ 24
            ssrc := value_of ((e.drop rb).take 4) }, ?_⟩
  simp only [read_block, word_ok (show rb + 12 + 4 ≤ e.length by omega),
    word_ok (show rb + 4 + 4 ≤ e.length by omega), word_ok (show rb + 4 ≤ e.length by omega),
    ok_bind, pure_eq_ok]

/-- Any bytes of the packet are read as blocks. -/
theorem parse_from_length (e : Mblk) (n i : Nat)
    (hget : ∀ idx < i + n, rtcp_RR_get_report_block e idx = some (8 + 24 * idx))
    (hroom : 8 + 24 * (i + n) ≤ e.length) :
    ∃ rs, parse_from e n i = .ok rs ∧ rs.length = n := by
  induction n generalizing i with
  | zero => exact ⟨[], rfl, rfl⟩
  | succ n ih =>
    obtain ⟨rs, hrest, hlen⟩ := ih (i + 1) (fun idx hidx => hget idx (by omega)) (by omega)
    obtain ⟨r, hread⟩ := read_block_room (show 8 + 24 * i + 24 ≤ e.length by omega)
    refine ⟨r :: rs, ?_, congrArg Nat.succ hlen⟩
    rw [parse_from, hget i (by omega)]
    simp only [hread, hrest, ok_bind, pure_eq_ok]

/-- A sender report that has report blocks. -/
def sends_blocks : Packet → Prop
  | .report sr _ _ blocks _ => sr = true ∧ blocks ≠ []
  | .other _ _ _ _ => False

/-- The copies that are made of some packets. They are right when no sender report has blocks. -/
structure Copies (packets : List Packet) (pkgs : List Pkg) : Prop where
  unread : ∀ p ∈ pkgs, p.it = p.report_blocks
  length : (pkgs.flatMap Pkg.it).length = (reports packets).length
  right : (∀ p ∈ packets, ¬ sends_blocks p) → pkgs.flatMap Pkg.it = reports packets

theorem Copies.append {ps ps' : List Packet} {pkgs pkgs' : List Pkg} (h : Copies ps pkgs)
    (h' : Copies ps' pkgs') : Copies (ps ++ ps') (pkgs ++ pkgs') where
  unread p hp := by
    rcases List.mem_append.mp hp with hp | hp
    · exact h.unread p hp
    · exact h'.unread p hp
  length := by
    have hsum : reports (ps ++ ps') = reports ps ++ reports ps' := List.flatMap_append
    rw [List.flatMap_append, hsum, List.length_append, List.length_append, h.length, h'.length]
  right hno := by
    have hsum : reports (ps ++ ps') = reports ps ++ reports ps' := List.flatMap_append
    rw [List.flatMap_append, hsum, h.right fun p hp => hno p (List.mem_append_left _ hp),
      h'.right fun p hp => hno p (List.mem_append_right _ hp)]

theorem copies_none (h : blocks_of p = []) : Copies [p] [] where
  unread _ hp := absurd hp List.not_mem_nil
  length := by simp [reports, h]
  right _ := by simp [reports, h]

theorem length_of_blocks (blocks : List Block) :
    (blocks.flatMap Block.bytes).length = 24 * blocks.length := by
  induction blocks with
  | nil => rfl
  | cons b blocks ih =>
    have hsize : b.bytes.length = 24 := b.size
    rw [List.flatMap_cons, List.length_append, ih, hsize, List.length_cons]
    omega

theorem report_length {sr : Bool} {flags : Nat} {head rest : List UInt8}
    (h : (Packet.report sr flags head blocks rest).WellFormed) :
    (Packet.report sr flags head blocks rest).bytes.length =
      4 + ((if sr then 24 else 4) + (24 * blocks.length + rest.length)) := by
  rw [Packet.length_bytes, Packet.body, List.length_append, List.length_append,
    length_of_blocks, h.fields.2.2]

/-- In a sender report, the accessor of the RR gives a place 20 bytes before the block. -/
theorem sender_report_places {flags : Nat} {head rest : List UInt8}
    (h : (Packet.report true flags head blocks rest).WellFormed) (tail : List UInt8) {idx : Nat}
    (hidx : idx < blocks.length) :
    rtcp_SR_get_report_block ((Packet.report true flags head blocks rest).bytes ++ tail) idx =
        some (28 + 24 * idx) ∧
      rtcp_RR_get_report_block ((Packet.report true flags head blocks rest).bytes ++ tail) idx =
        some (8 + 24 * idx) := by
  have hlen := report_length h
  simp only [if_true] at hlen
  unfold rtcp_SR_get_report_block rtcp_RR_get_report_block
  rw [h.get_report_block, h.get_report_block, if_pos (by omega), if_pos (by omega)]
  exact ⟨rfl, rfl⟩

/-- In a receiver report, the accessor of the RR finds the blocks. -/
theorem receiver_blocks {flags : Nat} {head rest : List UInt8}
    (h : (Packet.report false flags head blocks rest).WellFormed) (tail : List UInt8)
    (hget : ∀ idx < 0 + blocks.length, rtcp_RR_get_report_block
      ((Packet.report false flags head blocks rest).bytes ++ tail) idx = some (8 + 24 * idx)) :
    parse_from ((Packet.report false flags head blocks rest).bytes ++ tail) blocks.length 0 =
      .ok (blocks.map block_numbers) := by
  have hsplit : (Packet.report false flags head blocks rest).bytes ++ tail =
      (with_header flags blocks.length RTCP_RR
        (Packet.report false flags head blocks rest).body).take 4 ++ head ++
        (blocks.flatMap Block.bytes ++ (rest ++ tail)) := by
    simp [Packet.bytes, Packet.body, with_header, bytes_of]
  have hfour : ((with_header flags blocks.length RTCP_RR
      (Packet.report false flags head blocks rest).body).take 4 ++ head).length =
        8 + 24 * 0 := by
    have hfields := h.fields.2.2
    rw [List.length_append, List.length_take, length_with_header]
    simp only [Bool.false_eq_true, if_false] at hfields
    omega
  rw [hsplit] at hget ⊢
  exact parse_from_blocks blocks _ _ 0 hfour hget

/-- A report is read with the accessor of the RR. -/
theorem parse_report {sr : Bool} {flags : Nat} {head rest : List UInt8}
    (h : (Packet.report sr flags head blocks rest).WellFormed) (tail : List UInt8)
    (type : Nat) :
    ∃ pkg, parse_report_block ((Packet.report sr flags head blocks rest).bytes ++ tail) type =
      .ok pkg ∧ Copies [.report sr flags head blocks rest] [pkg] := by
  have hlen := report_length h
  have hhead : 4 ≤ if sr then 24 else 4 := by cases sr <;> decide
  have hget : ∀ idx < 0 + blocks.length, rtcp_RR_get_report_block
      ((Packet.report sr flags head blocks rest).bytes ++ tail) idx = some (8 + 24 * idx) := by
    intro idx hidx
    unfold rtcp_RR_get_report_block
    rw [h.get_report_block, if_pos (by omega)]
  obtain ⟨rs, hparse, hrs⟩ := parse_from_length
    ((Packet.report sr flags head blocks rest).bytes ++ tail) blocks.length 0 hget
    (by rw [List.length_append]; omega)
  refine ⟨{ report_blocks := rs, it := rs, type := type }, ?_, ?_, ?_, ?_⟩
  · unfold parse_report_block
    rw [h.header]
    dsimp only [Packet.count]
    rw [hparse]
    rfl
  · intro p hp
    rw [List.mem_singleton.mp hp]
  · simp [reports, blocks_of, hrs]
  · intro hno
    have hno' : ¬ (sr = true ∧ blocks ≠ []) := hno _ List.mem_cons_self
    suffices hright : rs = blocks.map block_numbers by simp [reports, blocks_of, hright]
    cases sr with
    | true =>
      have hnil : blocks = [] := by
        by_contra hne
        exact hno' ⟨rfl, hne⟩
      subst hnil
      exact List.length_eq_zero_iff.mp hrs
    | false =>
      rw [receiver_blocks h tail hget] at hparse
      exact (Except.ok.inj hparse).symm

/-- The copies of the first packet. -/
theorem first_packet (h : p.WellFormed) (tail : List UInt8) :
    ∃ pkgs, parse_packet (p.bytes ++ tail) = .ok pkgs ∧ Copies [p] pkgs := by
  unfold parse_packet rtcp_is_SR rtcp_is_RR
  rw [h.is_report, h.is_report]
  cases p with
  | other flags count packet_type body =>
    have htype := h.fields.2.2.2
    refine ⟨[], ?_, copies_none rfl⟩
    simp [Packet.type, htype.1, htype.2]
  | report sr flags head blocks rest =>
    have hlen := report_length h
    cases sr with
    | true =>
      obtain ⟨pkg, hparse, hcopies⟩ := parse_report h tail 1
      refine ⟨[pkg], ?_, hcopies⟩
      rw [if_pos, hparse]
      · rfl
      · simp only [if_true] at hlen
        simp only [Packet.type, if_true, decide_true, Bool.true_and, decide_eq_true_eq]
        omega
    | false =>
      have hsr : ¬ (decide ((Packet.report false flags head blocks rest).type = RTCP_SR) &&
          decide (28 ≤ (Packet.report false flags head blocks rest).bytes.length +
            tail.length)) = true := by
        simp [Packet.type, RTCP_SR, RTCP_RR]
      rw [if_neg hsr]
      by_cases hlong : 32 ≤ (Packet.report false flags head blocks rest).bytes.length + tail.length
      · obtain ⟨pkg, hparse, hcopies⟩ := parse_report h tail 2
        refine ⟨[pkg], ?_, hcopies⟩
        rw [if_pos, hparse]
        · rfl
        · simp [Packet.type, hlong]
      · have hnil : blocks = [] := by
          apply List.length_eq_zero_iff.mp
          simp only [Bool.false_eq_true, if_false] at hlen
          omega
        refine ⟨[], ?_, copies_none (by rw [blocks_of, hnil])⟩
        simp [hlong]

/-! ## A compound packet -/

theorem open_packets {packets : List Packet} (h : ∀ p ∈ packets, p.WellFormed) {fuel : Nat}
    (hfuel : (bytes_of_packets packets).length < fuel) :
    ∃ pkgs, open_from fuel (bytes_of_packets packets) = .ok pkgs ∧ Copies packets pkgs := by
  induction packets generalizing fuel with
  | nil =>
    cases fuel with
    | zero => exact absurd hfuel (Nat.not_lt_zero _)
    | succ fuel => exact ⟨[], rfl, fun _ hp => absurd hp List.not_mem_nil, rfl, fun _ => rfl⟩
  | cons p packets ih =>
    cases fuel with
    | zero => exact absurd hfuel (Nat.not_lt_zero _)
    | succ fuel =>
      have hp := h p List.mem_cons_self
      have hsplit : bytes_of_packets (p :: packets) = p.bytes ++ bytes_of_packets packets :=
        List.flatMap_cons
      rw [hsplit, List.length_append, Packet.length_bytes] at hfuel
      obtain ⟨pkgs, hfirst, hcopies⟩ := first_packet hp (bytes_of_packets packets)
      have hless : (bytes_of_packets packets).length < fuel := by omega
      obtain ⟨pkgs', hrest, hcopies'⟩ :=
        ih (fun q hq => h q (List.mem_cons_of_mem p hq)) hless
      rw [hsplit, open_from, hfirst, hp.next_packet]
      cases packets with
      | nil => exact ⟨pkgs, rfl, hcopies⟩
      | cons q packets =>
        have hne : bytes_of_packets (q :: packets) ≠ [] := by
          intro hnil
          have hlen := congrArg List.length hnil
          rw [show bytes_of_packets (q :: packets) = q.bytes ++ bytes_of_packets packets from
            List.flatMap_cons, List.length_append, Packet.length_bytes] at hlen
          simp at hlen
        rw [if_neg hne]
        refine ⟨pkgs ++ pkgs', ?_, Copies.append hcopies hcopies'⟩
        simp only [ok_bind, hrest, pure_eq_ok]

theorem open_compound (c : Compound) :
    ∃ pkgs, rtcp_hlp_open c.bytes = .ok { pkgs := pkgs, it := pkgs } ∧ Copies c.packets pkgs := by
  obtain ⟨pkgs, hopen, hcopies⟩ := open_packets c.well_formed (Nat.lt_succ_self c.bytes.length)
  refine ⟨pkgs, ?_, hcopies⟩
  rw [rtcp_hlp_open, show open_from (c.bytes.length + 1) c.bytes = .ok pkgs from hopen]
  rfl

/-- The caller gets as many handles as there are report blocks. -/
theorem statistics_length (mem : Memory) (c : Compound) :
    ∃ rs, statistics mem c.bytes = .ok rs ∧ rs.length = (reports c.packets).length := by
  obtain ⟨pkgs, hopen, hcopies⟩ := open_compound c
  obtain ⟨rs, hread, hlen⟩ := read_all_length mem
    (c := { pkgs := pkgs, it := pkgs }) (Nat.lt_succ_self _)
  refine ⟨rs, ?_, hlen.trans hcopies.length⟩
  rw [statistics, hopen]
  exact hread

/-- What it reads through them does not come from the blocks. -/
theorem statistics_mem {mem : Memory} {c : Compound} {rs : List ReportBlock}
    (h : statistics mem c.bytes = .ok rs) : ∀ r ∈ rs, ∃ pkg p, r = mem pkg p := by
  obtain ⟨ctx, -, hread⟩ := bind_ok h
  exact read_all_mem hread

end

/-! ## The law -/

/-- The numbers are right, whatever the memory of a packet holds, exactly when no report of the
compound packet has a report block. -/
theorem the_numbers_are_right_only_without_report_blocks (c : Compound) :
    (∀ mem, statistics mem c.bytes = .ok (reports c.packets)) ↔
      ∀ p ∈ c.packets, blocks_of p = [] := by
  constructor
  · intro hall p hp
    by_contra hne
    obtain ⟨b, hb⟩ := List.exists_mem_of_ne_nil _ hne
    have hmem : block_numbers b ∈ reports c.packets :=
      List.mem_flatMap.mpr ⟨p, hp, List.mem_map_of_mem hb⟩
    -- A memory that holds another SSRC.
    obtain ⟨-, -, heq⟩ := statistics_mem
      (hall fun _ _ => { block_numbers b with ssrc := (block_numbers b).ssrc + 1 }) _ hmem
    have hssrc := congrArg ReportBlock.ssrc heq
    simp at hssrc
  · intro hnone mem
    have hempty : reports c.packets = [] := by
      apply List.flatMap_eq_nil_iff.mpr
      intro p hp
      rw [hnone p hp]
      rfl
    obtain ⟨rs, hrs, hlen⟩ := statistics_length mem c
    rw [hempty, List.length_nil, List.length_eq_zero_iff] at hlen
    rw [hrs, hlen, hempty]

/-- A receiver report with one block: SSRC 17, fraction lost 5, loss 7, jitter 9. -/
def one_block : Block where
  bytes := [0, 0, 0, 17, 5, 0, 0, 7, 0, 0, 0, 1, 0, 0, 0, 9, 0, 0, 0, 0, 0, 0, 0, 0]
  size := rfl

def one_report : Compound where
  packets := [.report false 4 [0, 0, 0, 1] [one_block] []]
  well_formed p hp := by
    rw [List.mem_singleton.mp hp]
    exact ⟨by decide, by decide, by decide, by decide, rfl⟩

/-- The vector of a packet, with its one element at 11014704. -/
def addresses : Memory := fun _ _ =>
  { jitter := 11014704, frac_lost := 11014708, cum_lost := 11014708, ssrc := 11014708 }

/-- The caller reads pointers. -/
theorem a_caller_reads_pointers :
    statistics addresses one_report.bytes = .ok [addresses 0 { report_blocks := [], it := []
                                                               type := 2 }] ∧
      reports one_report.packets = [{ jitter := 9, frac_lost := 5, cum_lost := 7, ssrc := 17 }] ∧
      ¬ ∀ (mem : Memory) (c : Compound), statistics mem c.bytes = .ok (reports c.packets) := by
  have hread : statistics addresses one_report.bytes =
      .ok [addresses 0 { report_blocks := [], it := [], type := 2 }] := by decide +kernel
  have hdue : reports one_report.packets =
      [{ jitter := 9, frac_lost := 5, cum_lost := 7, ssrc := 17 }] := by decide +kernel
  refine ⟨hread, hdue, fun hall => ?_⟩
  have h := hall addresses one_report
  rw [hread, hdue] at h
  simp [addresses] at h

end zonekey_mcu.rtcp_hlp
