-- Frames whose units stand behind start codes of three or four bytes, in any mixture. The search
-- finds the last three bytes of a start code, so the first zero of a long one goes to the unit
-- before it.
import ZonekeyMcu.AnnexBSplit

namespace zonekey_mcu.annexb

/-- `annexb2queue` of the video mixer, word for word that of the H.264 source. -/
def X264.annexb2queue : Nat → List UInt8 → Except Fault (List (List UInt8)) := annexb.annexb2queue

namespace start_codes

/-! ## Mixed frames -/

inductive StartCode
  | short
  | long
  deriving DecidableEq

def StartCode.bytes : StartCode → List UInt8
  | .short => [0, 0, 1]
  | .long => [0, 0, 0, 1]

/-- A unit behind its start code. -/
abbrev Coded := StartCode × List UInt8

def frame (units : List Coded) : List UInt8 := units.flatMap fun u => u.1.bytes ++ u.2

/-- The zero that a unit takes from the start code of the next one. -/
def extra : List Coded → List UInt8
  | (.long, _) :: _ => [0]
  | _ => []

/-- What the splitter makes of the units. -/
def received : List Coded → List (List UInt8)
  | [] => []
  | (_, nal) :: units => (nal ++ extra units) :: received units

/-- The frame without the first zero of a long start code at its front. -/
def tail_frame : List Coded → List UInt8
  | [] => []
  | (_, nal) :: units => [0, 0, 1] ++ nal ++ frame units

section

variable {units : List Coded}

theorem frame_cons (c : StartCode) (nal : List UInt8) (units : List Coded) :
    frame ((c, nal) :: units) = c.bytes ++ nal ++ frame units := List.flatMap_cons

theorem frame_eq (units : List Coded) : frame units = extra units ++ tail_frame units := by
  cases units with
  | nil => rfl
  | cons u units =>
    obtain ⟨c, nal⟩ := u
    rw [frame_cons]
    cases c <;> rfl

/-! ## The splitter -/

/-- The zero of a long start code belongs to no start code that begins in the unit. -/
theorem no_start_in_received {nal : List UInt8} (h : WellFormed nal) (units : List Coded)
    {i : Nat} (hi : i < (nal ++ extra units).length) :
    ¬ StartAt (nal ++ extra units ++ tail_frame units) i := by
  by_cases hin : i < nal.length
  · rw [List.append_assoc]
    exact no_start_in_unit h _ hin
  · rw [List.length_append] at hi
    obtain ⟨nal', units', rfl⟩ : ∃ nal' units', units = (.long, nal') :: units' := by
      match units with
      | [] => simp [extra] at hi; omega
      | (.short, _) :: _ => simp [extra] at hi; omega
      | (.long, nal') :: units' => exact ⟨nal', units', rfl⟩
    have hlast : i = nal.length + 0 := by
      have : (extra ((.long, nal') :: units')).length = 1 := rfl
      omega
    rw [hlast, List.append_assoc, start_append]
    rintro ⟨-, -, hone⟩
    exact absurd hone (by simp [extra, tail_frame])

theorem tail_frame_splits (h : ∀ u ∈ units, WellFormed u.2) (pre : List UInt8) :
    Splits (pre ++ tail_frame units) pre.length (received units) := by
  induction units generalizing pre with
  | nil =>
    have hdone : Splits pre pre.length [] := Splits.done
    simpa [tail_frame, received] using hdone
  | cons u units ih =>
    obtain ⟨c, nal⟩ := u
    have hnal : WellFormed nal := h _ List.mem_cons_self
    have hdata : pre ++ tail_frame ((c, nal) :: units) =
        pre ++ [0, 0, 1] ++ (nal ++ extra units) ++ tail_frame units := by
      rw [tail_frame, frame_eq units]
      simp only [List.append_assoc]
    have hne : nal ++ extra units ≠ [] := List.append_ne_nil_of_left_ne_nil hnal.ne _
    rw [hdata]
    exact unit_splits hne (fun i hi => no_start_in_received hnal units hi)
      (ih (fun u hu => h u (List.mem_cons_of_mem _ hu)) _)

/-- The first start code that is found is that of the first unit. -/
theorem first_start (h : ∀ u ∈ units, WellFormed u.2) :
    Next (frame units) 0 (extra units).length := by
  have hsplits := tail_frame_splits h (extra units)
  rw [← frame_eq] at hsplits
  rcases splits_head hsplits with hend | ⟨hstart, hlt⟩
  · rw [hend]
    refine .inr ⟨fun r _ hr => ?_, rfl⟩
    -- only the empty frame ends where its first unit starts
    match units with
    | [] => simp [frame] at hr
    | (c, nal) :: units =>
      rw [frame_eq, List.length_append] at hend
      simp [tail_frame] at hend
  · refine .inl ⟨Nat.zero_le _, by omega, hstart, fun r _ hr => ?_⟩
    match units with
    | [] => simp [extra] at hr
    | (.short, _) :: _ => simp [extra] at hr
    | (.long, nal) :: units =>
      obtain rfl : r = 0 := by simpa [extra] using hr
      rintro ⟨-, -, hone⟩
      exact absurd hone (by simp [frame, StartCode.bytes])

/-- The queue holds each unit, with a zero at its end where the next start code is long. -/
theorem annexb2queue_received (h : ∀ u ∈ units, WellFormed u.2) (base : Nat) :
    annexb2queue base (frame units) = .ok (received units) := by
  have hsplits := tail_frame_splits h (extra units)
  rw [← frame_eq] at hsplits
  unfold annexb2queue ff_avc_find_startcode_internal
  rw [find_startcode_at base (Nat.zero_le _) (first_start h), ok_bind]
  exact annexb_loop_splits base hsplits _ (by omega)

/-! ## The law -/

theorem received_eq_iff (units : List Coded) :
    received units = units.map Prod.snd ↔ ∀ u ∈ units.tail, u.1 = .short := by
  induction units with
  | nil => simp [received]
  | cons u units ih =>
    obtain ⟨c, nal⟩ := u
    rw [received, List.map_cons, List.cons.injEq, ih, List.tail_cons]
    match units with
    | [] => simp [extra]
    | (.short, nal') :: units => simp [extra]
    | (.long, nal') :: units => simp [extra]

/-- Both copies of the splitter give exactly the units if and only if every start code but the
first one is short. -/
theorem the_units_come_back_unless_a_later_start_code_is_long
    (h : ∀ u ∈ units, WellFormed u.2) :
    (∀ base, annexb2queue base (frame units) = .ok (units.map Prod.snd) ∧
        X264.annexb2queue base (frame units) = .ok (units.map Prod.snd)) ↔
      ∀ u ∈ units.tail, u.1 = .short := by
  have hboth : ∀ base, X264.annexb2queue base (frame units) = annexb2queue base (frame units) :=
    fun _ => rfl
  simp only [hboth, annexb2queue_received h, and_self, forall_const, Except.ok.injEq]
  exact received_eq_iff units

end

/-- A well-formed unit of one byte. -/
theorem one_byte_well_formed {b : UInt8} (hb : b ≠ 0) : WellFormed [b] where
  ne := List.cons_ne_nil b []
  no_zeros h := absurd h.length_le (by decide : ¬ 3 ≤ 1)
  no_startcode h := absurd h.length_le (by decide : ¬ 3 ≤ 1)
  last_ne := by simpa using hb

theorem the_units_come_back_unless_a_later_start_code_is_long_example :
    (∀ base, annexb2queue base (frame [(.long, [0x67]), (.short, [0x68])]) =
          .ok ([(StartCode.long, [0x67]), (.short, [0x68])].map Prod.snd) ∧
        X264.annexb2queue base (frame [(.long, [0x67]), (.short, [0x68])]) =
          .ok ([(StartCode.long, [0x67]), (.short, [0x68])].map Prod.snd)) ↔
      ∀ u ∈ [(StartCode.long, [(0x67 : UInt8)]), (.short, [0x68])].tail, u.1 = .short := by
  refine the_units_come_back_unless_a_later_start_code_is_long ?_
  simp only [List.mem_cons, List.not_mem_nil, or_false, forall_eq_or_imp, forall_eq]
  exact ⟨one_byte_well_formed (by decide), one_byte_well_formed (by decide)⟩

/-- Two units behind long start codes: the first one gets a zero more. -/
theorem a_unit_before_a_long_start_code_gets_a_zero :
    WellFormed [0x67] ∧ WellFormed [0x68] ∧
      annexb2queue 0 [0, 0, 0, 1, 0x67, 0, 0, 0, 1, 0x68] = .ok [[0x67, 0], [0x68]] :=
  ⟨one_byte_well_formed (by decide), one_byte_well_formed (by decide), by decide +kernel⟩

end start_codes

end zonekey_mcu.annexb
