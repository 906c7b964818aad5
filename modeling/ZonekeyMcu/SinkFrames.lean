-- A sink over a run of packets. `cb_data` takes the units of a packet out of a queue that outlives
-- the call, and returns from the middle of its loop when the stamp has gone back.
import ZonekeyMcu.AnnexBSplit
import ZonekeyMcu.Rfc3984
import ZonekeyMcu.Lib.Runs

open runs zonekey_mcu.annexb

namespace zonekey_mcu.sink_frames

/-! ## The sink -/

/-- What `SinkBase` takes from its subclass and from the machine: the units that a packet gives,
and `next_stamp_ + delta / payload_freq()` in the arithmetic of `double`. -/
structure Sub (P D : Type) where
  post_handle : P → rfc3984.Packet → Except Fault (P × List (List UInt8))
  advance : D → UInt32 → D

/-- The H.264 sink. -/
def SinkH264 {D : Type} (advance : D → UInt32 → D) : Sub rfc3984.Rfc3984Context D where
  post_handle := rfc3984.rfc3984_unpack
  advance := advance

/-- A packet, and the byte that stands in memory behind an empty unit. -/
structure Arrival where
  packet : rfc3984.Packet
  behind : UInt8

structure Sink (P D : Type) where
  first_frame_ : Bool
  last_stamp_ : UInt32
  next_stamp_ : D
  packer_ : P
  queue_ : List (List UInt8)

/-- What the callback gets. -/
structure Frame (D : Type) where
  stamp : D
  bytes : List UInt8
  key : Bool

section

variable {P D : Type} (sub : Sub P D)

/-- `last_stamp` stands in memory before the first frame. -/
def Sink.Start (packer_ : P) (zero : D) (last_stamp : UInt32) : Sink P D where
  first_frame_ := true
  last_stamp_ := last_stamp
  next_stamp_ := zero
  packer_ := packer_
  queue_ := []

/-- The first unit is a SPS. -/
def is_key (m : List UInt8) (behind : UInt8) : Bool := m.headD behind = 0x67

/-- The loop: the buffer with `off` bytes in use, and the key flag. A frame whose stamp went back
is left in the middle. -/
def cb_data_loop (st : UInt32) (behind : UInt8) :
    Sink P D → Nat → List UInt8 → Nat → Bool → List (List UInt8) →
      Except Fault (Sink P D × Option (List UInt8 × Nat × Bool))
  | s, _, obuf, off, key, [] => .ok ({ s with queue_ := [] }, some (obuf, off, key))
  | s, index, obuf, off, key, om :: queue => do
    let dlen := annexb.SinkH264.size_for index om
    let obuf ← put (off + dlen) (obuf.take off) (annexb.SinkH264.save_for index om)
    let key := if index = 0 then is_key om behind else key
    if s.first_frame_ then
      cb_data_loop st behind { s with first_frame_ := false, last_stamp_ := st } (index + 1) obuf
        (off + dlen) key queue
    else
      let delta := st - s.last_stamp_
      if delta > 0x80000000 then return ({ s with queue_ := queue }, none)
      else
        cb_data_loop st behind
          { s with next_stamp_ := sub.advance s.next_stamp_ delta, last_stamp_ := st }
          (index + 1) obuf (off + dlen) key queue

/-- There is no buffer when there was no unit. -/
def cb_data (s : Sink P D) (m : Arrival) : Except Fault (Sink P D × Option (Frame D)) := do
  let (packer_, nals) ← sub.post_handle s.packer_ m.packet
  let queue_ := s.queue_ ++ nals
  match ← cb_data_loop sub m.packet.ts m.behind { s with packer_, queue_ } 0 [] 0 false queue_ with
  | (s, none) => return (s, none)
  | (s, some (obuf, off, key)) =>
    if off = 0 then return (s, none) else return (s, some ⟨s.next_stamp_, obuf.take off, key⟩)

/-- The sink after a packet. -/
def step (s : Sink P D) (m : Arrival) : Except Fault (Sink P D) := (cb_data sub s m).map Prod.fst

/-! ## The property -/

/-- A call that got these units left nothing behind. The bytes of a frame are its own units. -/
structure Clean (s s' : Sink P D) (nals : List (List UInt8)) (frame : Option (Frame D)) :
    Prop where
  queue : s'.queue_ = []
  rejected : frame = none → s'.last_stamp_ = s.last_stamp_ ∧ s'.next_stamp_ = s.next_stamp_
  own : ∀ f, frame = some f → f.bytes = 0 :: units nals

/-- Where the packet can be unpacked, the call returns and leaves nothing behind. -/
def CleanCall (s : Sink P D) (m : Arrival) : Prop :=
  ∀ packer_ nals, sub.post_handle s.packer_ m.packet = .ok (packer_, nals) →
    ∃ s' frame, cb_data sub s m = .ok (s', frame) ∧ Clean s s' nals frame

/-- The stamp is more than half of its range behind the last one. -/
def GoesBack (s : Sink P D) (st : UInt32) : Prop :=
  s.first_frame_ = false ∧ st - s.last_stamp_ > 0x80000000

/-- The packet is not one of two units or more whose stamp goes back. -/
def Harmless (s : Sink P D) (m : Arrival) : Prop :=
  ∀ packer_ nals, sub.post_handle s.packer_ m.packet = .ok (packer_, nals) →
    ¬ (GoesBack s m.packet.ts ∧ 2 ≤ nals.length)

end

/-! ## One call -/

section

variable {P D : Type} {sub : Sub P D} {s : Sink P D} {st : UInt32} {behind : UInt8}

/-- The units after the first one: their stamp is the last one now. -/
theorem cb_data_loop_rest (hfirst : s.first_frame_ = false) (hstamp : s.last_stamp_ = st)
    (key : Bool) {index : Nat} (hindex : index ≠ 0) (obuf : List UInt8)
    (queue : List (List UInt8)) :
    ∃ s', cb_data_loop sub st behind s index obuf obuf.length key queue =
        .ok (s', some (obuf ++ units queue, (obuf ++ units queue).length, key)) ∧
      s'.queue_ = [] := by
  induction queue generalizing s index obuf with
  | nil => exact ⟨{ s with queue_ := [] }, by simp [cb_data_loop, units], rfl⟩
  | cons om queue ih =>
    have hsave := length_save_for index om
    have hbytes : annexb.SinkH264.save_for index om = 0 :: 0 :: 1 :: om := if_neg hindex
    have hdelta : ¬ st - s.last_stamp_ > 0x80000000 := by
      rw [hstamp, UInt32.sub_self]
      decide
    obtain ⟨s', hs', hqueue⟩ := ih
      (s := { s with next_stamp_ := sub.advance s.next_stamp_ (st - s.last_stamp_),
                     last_stamp_ := st })
      hfirst rfl (Nat.add_one_ne_zero index) (obuf ++ annexb.SinkH264.save_for index om)
    refine ⟨s', ?_, hqueue⟩
    have hroom : obuf.length + (annexb.SinkH264.save_for index om).length ≤
        obuf.length + annexb.SinkH264.size_for index om := by rw [hsave]
    rw [List.length_append, hsave] at hs'
    unfold cb_data_loop
    dsimp only
    rw [List.take_length, put_ok hroom, ok_bind, if_neg hindex,
      if_neg (by rw [hfirst]; exact Bool.false_ne_true), if_neg hdelta, hs', hbytes, units_cons]
    simp [List.append_assoc]

/-- A frame whose stamp goes back: its first unit is lost and the others stay in the queue. -/
theorem cb_data_loop_rejected (sub : Sub P D) (behind : UInt8) (hback : GoesBack s st)
    (nal : List UInt8) (nals : List (List UInt8)) :
    cb_data_loop sub st behind s 0 [] 0 false (nal :: nals) =
      .ok ({ s with queue_ := nals }, none) := by
  have hroom : ([] : List UInt8).length + (annexb.SinkH264.save_for 0 nal).length ≤
      0 + annexb.SinkH264.size_for 0 nal := by
    rw [length_save_for]
    exact Nat.le_refl _
  unfold cb_data_loop
  dsimp only
  rw [List.take_nil, put_ok hroom, ok_bind,
    if_neg (by rw [hback.1]; exact Bool.false_ne_true), if_pos hback.2]
  rfl

/-- A frame that is taken, with all its units. -/
theorem cb_data_loop_taken (sub : Sub P D) (behind : UInt8) (hforward : ¬ GoesBack s st)
    (nal : List UInt8) (nals : List (List UInt8)) :
    ∃ s' key, cb_data_loop sub st behind s 0 [] 0 false (nal :: nals) =
        .ok (s', some (0 :: units (nal :: nals), (0 :: units (nal :: nals)).length, key)) ∧
      s'.queue_ = [] := by
  have hsave := length_save_for 0 nal
  have hbytes : annexb.SinkH264.save_for 0 nal ++ units nals = 0 :: units (nal :: nals) := by
    rw [units_cons]
    rfl
  have hroom : ([] : List UInt8).length + (annexb.SinkH264.save_for 0 nal).length ≤
      0 + annexb.SinkH264.size_for 0 nal := by
    rw [hsave]
    exact Nat.le_refl _
  have hrest : ∀ s₁ : Sink P D, s₁.first_frame_ = false → s₁.last_stamp_ = st → ∃ s',
      cb_data_loop sub st behind s₁ 1 (annexb.SinkH264.save_for 0 nal)
          (annexb.SinkH264.size_for 0 nal) (is_key nal behind) nals =
        .ok (s', some (0 :: units (nal :: nals), (0 :: units (nal :: nals)).length,
          is_key nal behind)) ∧ s'.queue_ = [] := by
    intro s₁ hfirst hstamp
    rw [← hbytes, ← hsave]
    exact cb_data_loop_rest hfirst hstamp _ Nat.one_ne_zero _ _
  unfold cb_data_loop
  dsimp only
  rw [List.take_nil, put_ok hroom, ok_bind, if_pos rfl, List.nil_append, Nat.zero_add,
    Nat.zero_add]
  by_cases hfirst : s.first_frame_ = true
  · rw [if_pos hfirst]
    obtain ⟨s', hs', hqueue⟩ :=
      hrest { s with first_frame_ := false, last_stamp_ := st } rfl rfl
    exact ⟨s', _, hs', hqueue⟩
  · have hfirst' : s.first_frame_ = false := Bool.eq_false_iff.mpr hfirst
    rw [if_neg hfirst, if_neg fun hback => hforward ⟨hfirst', hback⟩]
    obtain ⟨s', hs', hqueue⟩ := hrest
      { s with next_stamp_ := sub.advance s.next_stamp_ (st - s.last_stamp_), last_stamp_ := st }
      hfirst' rfl
    exact ⟨s', _, hs', hqueue⟩

/-- What a call does with an empty queue, and with the units that the packet gives. -/
theorem cb_data_cases {m : Arrival} (hqueue : s.queue_ = []) {packer_ : P}
    {nals : List (List UInt8)}
    (hpost : sub.post_handle s.packer_ m.packet = .ok (packer_, nals)) :
    ∃ s' frame, cb_data sub s m = .ok (s', frame) ∧
      (GoesBack s m.packet.ts ∧ frame = none ∧
          s' = { s with packer_ := packer_, queue_ := nals.tail } ∨
        s'.queue_ = [] ∧ (nals = [] ∧ frame = none ∧ s' = { s with packer_ := packer_ } ∨
          ¬ GoesBack s m.packet.ts ∧ ∃ f, frame = some f ∧ f.bytes = 0 :: units nals)) := by
  unfold cb_data
  rw [hpost, ok_bind, hqueue]
  dsimp only
  rw [List.nil_append]
  cases nals with
  | nil =>
    refine ⟨{ s with packer_ := packer_, queue_ := [] }, none, rfl, .inr ⟨rfl, .inl ?_⟩⟩
    exact ⟨rfl, rfl, by rw [← hqueue]⟩
  | cons nal nals =>
    by_cases hback : GoesBack s m.packet.ts
    · have hloop := cb_data_loop_rejected sub m.behind
        (s := { s with packer_ := packer_, queue_ := nal :: nals }) hback nal nals
      rw [hloop, ok_bind]
      exact ⟨_, none, rfl, .inl ⟨hback, rfl, rfl⟩⟩
    · obtain ⟨s', key, hloop, hempty⟩ := cb_data_loop_taken sub m.behind
        (s := { s with packer_ := packer_, queue_ := nal :: nals }) hback nal nals
      rw [hloop, ok_bind]
      dsimp only
      rw [if_neg (by rw [List.length_cons]; omega)]
      refine ⟨s', _, rfl, .inr ⟨hempty, .inr ⟨hback, _, rfl, ?_⟩⟩⟩
      exact List.take_length

/-- A call is clean exactly when it is harmless. -/
theorem clean_call_iff {m : Arrival} (hqueue : s.queue_ = []) :
    CleanCall sub s m ↔ Harmless sub s m := by
  constructor
  · rintro hclean packer_ nals hpost ⟨hback, htwo⟩
    obtain ⟨s', frame, hcall, hc⟩ := hclean packer_ nals hpost
    obtain ⟨s₁, frame₁, hcall₁, hcases⟩ := cb_data_cases hqueue hpost
    rw [hcall] at hcall₁
    cases hcall₁
    rcases hcases with ⟨-, -, hs'⟩ | ⟨-, ⟨hnil, -⟩ | ⟨hforward, -⟩⟩
    · -- the units behind the first one are still in the queue
      have hleft := hc.queue
      rw [hs'] at hleft
      have hlen := congrArg List.length hleft
      rw [List.length_tail, List.length_nil] at hlen
      omega
    · rw [hnil, List.length_nil] at htwo
      omega
    · exact hforward hback
  · intro hharmless packer_ nals hpost
    obtain ⟨s', frame, hcall, hcases⟩ := cb_data_cases hqueue hpost
    refine ⟨s', frame, hcall, ?_⟩
    rcases hcases with ⟨hback, rfl, rfl⟩ | ⟨hempty, ⟨-, rfl, rfl⟩ | ⟨-, f, rfl, hbytes⟩⟩
    · have hone : nals.length < 2 := by
        by_contra htwo
        exact hharmless packer_ nals hpost ⟨hback, by omega⟩
      refine ⟨?_, fun _ => ⟨rfl, rfl⟩, nofun⟩
      apply List.eq_nil_of_length_eq_zero
      rw [List.length_tail]
      omega
    · exact ⟨hempty, fun _ => ⟨rfl, rfl⟩, nofun⟩
    · refine ⟨hempty, nofun, fun g hg => ?_⟩
      cases hg
      exact hbytes

theorem step_clean {m : Arrival} {t : Sink P D} (hclean : CleanCall sub s m)
    (hstep : step sub s m = .ok t) : t.queue_ = [] := by
  unfold step at hstep
  cases hpost : sub.post_handle s.packer_ m.packet with
  | error e =>
    unfold cb_data at hstep
    rw [hpost] at hstep
    cases hstep
  | ok r =>
    obtain ⟨s', frame, hcall, hc⟩ := hclean r.1 r.2 hpost
    rw [hcall] at hstep
    cases hstep
    exact hc.queue

/-! ## The frames of one call -/

/-- The part of a sink that makes a frame. -/
def Sink.base (s : Sink P D) : SinkBase := ⟨s.first_frame_, s.last_stamp_, s.queue_⟩

theorem cb_data_loop_base (sub : Sub P D) (s : Sink P D) (st : UInt32) (behind : UInt8)
    (index : Nat) (obuf : List UInt8) (off : Nat) (key : Bool) (queue : List (List UInt8))
    (hne : index = 0 → queue.head? ≠ some []) :
    (cb_data_loop sub st behind s index obuf off key queue).map (fun r => (r.1.base, r.2)) =
      annexb.cb_data_loop st s.base index obuf off key queue := by
  induction queue generalizing s index obuf off key with
  | nil => rfl
  | cons om queue ih =>
    have hkey : ∀ {β : Type} (f : Bool → Except Fault β),
        (if index = 0 then annexb.SinkH264.is_key om >>= f else Except.ok key >>= f) =
          f (if index = 0 then is_key om behind else key) := by
      intro β f
      by_cases hindex : index = 0
      · rw [if_pos hindex, if_pos hindex]
        cases om with
        | nil => exact absurd rfl (hne hindex)
        | cons b om => rfl
      · rw [if_neg hindex, if_neg hindex]
        rfl
    have hnext : index + 1 = 0 → queue.head? ≠ some [] := fun h => absurd h (Nat.succ_ne_zero _)
    unfold cb_data_loop annexb.cb_data_loop
    dsimp only
    cases put (off + annexb.SinkH264.size_for index om) (obuf.take off)
      (annexb.SinkH264.save_for index om) with
    | error e => rfl
    | ok obuf =>
      rw [ok_bind, ok_bind, hkey]
      generalize (if index = 0 then is_key om behind else key) = key
      by_cases hfirst : s.first_frame_ = true
      · have hforward : ¬ (s.base.first_frame_ = false ∧ st - s.base.last_stamp_ > 0x80000000) := by
          rintro ⟨hno, -⟩
          rw [show s.base.first_frame_ = s.first_frame_ from rfl, hfirst] at hno
          cases hno
        rw [if_pos hfirst, if_neg hforward]
        exact ih _ _ _ _ _ hnext
      · have hfirst' : s.base.first_frame_ = false := Bool.eq_false_iff.mpr hfirst
        rw [if_neg hfirst]
        by_cases hdelta : st - s.last_stamp_ > 0x80000000
        · rw [if_pos hdelta, if_pos ⟨hfirst', hdelta⟩]
          rfl
        · rw [if_neg hdelta, if_neg fun h => hdelta h.2]
          have hrest := ih { s with
            next_stamp_ := sub.advance s.next_stamp_ (st - s.last_stamp_), last_stamp_ := st }
            (index + 1) obuf (off + annexb.SinkH264.size_for index om)
            key hnext
          rw [hrest]
          unfold Sink.base
          dsimp only
          rw [Bool.eq_false_iff.mpr hfirst]

/-- One call makes the frame that `annexb.cb_data` makes of the units in the queue. -/
theorem cb_data_base {m : Arrival} {packer_ : P} {nals : List (List UInt8)}
    (hpost : sub.post_handle s.packer_ m.packet = .ok (packer_, nals))
    (hne : (s.queue_ ++ nals).head? ≠ some []) :
    (cb_data sub s m).map (fun r => (r.1.base, r.2.map fun f => (f.bytes, f.key))) =
      annexb.cb_data { s.base with queue_ := s.queue_ ++ nals } m.packet.ts := by
  have hloop := cb_data_loop_base sub { s with packer_ := packer_, queue_ := s.queue_ ++ nals }
    m.packet.ts m.behind 0 [] 0 false
    (s.queue_ ++ nals) fun _ => hne
  unfold cb_data annexb.cb_data
  rw [hpost, ok_bind]
  dsimp only
  have hbase : Sink.base { s with packer_ := packer_, queue_ := s.queue_ ++ nals } =
      { s.base with queue_ := s.queue_ ++ nals } := rfl
  rw [← hbase, ← hloop]
  generalize cb_data_loop sub m.packet.ts m.behind _ 0 [] 0 false (s.queue_ ++ nals) = result
  cases result with
  | error e => rfl
  | ok r =>
    obtain ⟨s', o⟩ := r
    cases o with
    | none => rfl
    | some r =>
      obtain ⟨obuf, off, key⟩ := r
      by_cases hoff : off = 0
      · simp [Except.map, hoff]
      · simp [Except.map, hoff]

/-! ## The law -/

/-- For every post-handler, and so for the H.264 one: in every run of packets each call leaves
nothing behind if and only if no packet of two units or more has a stamp that goes back. -/
theorem every_call_is_clean_unless_two_units_go_back (sub : Sub P D) (packer_ : P) (zero : D)
    (last_stamp : UInt32) (ms : List Arrival) :
    Meets (step sub) (CleanCall sub) (Sink.Start packer_ zero last_stamp) ms ↔
      Meets (step sub) (Harmless sub) (Sink.Start packer_ zero last_stamp) ms :=
  meets_congr (I := fun s : Sink P D => s.queue_ = []) (fun _ _ hqueue => clean_call_iff hqueue)
    (fun _ _ _ _ hclean hstep => step_clean hclean hstep) ms rfl

end

/-! ## A frame that is rejected -/

/-- A packet of one unit, or of two in a STAP-A packet, at the end of its frame. -/
def packet (ts : UInt32) (payload : List UInt8) : Arrival := ⟨⟨payload, ts, true⟩, 0⟩

/-- After a frame of stamp 100 comes one of stamp 50, with the units 41 and 42. It is rejected, and
its second unit comes with the frame of stamp 200. -/
theorem a_rejected_unit_comes_with_the_next_frame :
    let sub := SinkH264 fun _ _ => ()
    let rejected := run (step sub) (Sink.Start (rfc3984.rfc3984_init 1400) () 0)
      [packet 100 [0x65], packet 50 [0x18, 0, 1, 0x41, 0, 1, 0x42]]
    rejected.map Sink.queue_ = .ok [[0x42]] ∧
      (rejected >>= fun s => cb_data sub s (packet 200 [0x43])).map (fun r => r.2.map Frame.bytes) =
        .ok (some (0 :: units [[0x42], [0x43]])) := by
  decide +kernel

end zonekey_mcu.sink_frames
