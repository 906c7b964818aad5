-- The frames that the players put together from NAL units, with the start codes and the
-- bytes of emulation prevention. The function stands twice in the sources: in the player,
-- which keeps the size of its buffer, and in the dump filter, which never sets it.
import ZonekeyMcu.AnnexB
import ZonekeyMcu.Lib.Emulation

namespace zonekey_mcu.nal_frames

open annexb emulation

/-! ## One unit -/

/-- `src[0] == 0 && src[1] && src[2] == 0 && src[3] == 1`: the unit is copied as it is. -/
def copied_whole (src : List UInt8) : Except Fault Bool := do
  let b0 ← byte src 0
  if b0 ≠ 0 then return false
  else do
    let b1 ← byte src 1
    if b1 = 0 then return false
    else do
      let b2 ← byte src 2
      if b2 ≠ 0 then return false
      else do
        let b3 ← byte src 3
        return b3 = 1

/-- The `while (src < m->b_wptr - 3)`, and the three bytes that are copied after it. -/
def copy_rest : List UInt8 → Except Fault (List UInt8)
  | b0 :: b1 :: b2 :: b3 :: src =>
    if b0 = 0 ∧ b1 = 0 ∧ b2 < 3 then do
      let rest ← copy_rest (b3 :: src)
      return 0 :: 0 :: 3 :: b2 :: rest
    else do
      let rest ← copy_rest (b1 :: b2 :: b3 :: src)
      return b0 :: rest
  | [b0, b1, b2] => .ok [b0, b1, b2]
  | _ => .error .outOfBounds

/-- The bytes that are written for a unit, and if it sets `*key`. -/
def copy_nal (src : List UInt8) : Except Fault (List UInt8 × Bool) := do
  if ← copied_whole src then return (src, false)
  else do
    let b0 ← byte src 0
    let type := b0 &&& 0x1f
    let rest ← copy_rest (src.drop 1)
    return (0 :: 0 :: 0 :: 1 :: b0 :: rest, type = 7 ∨ type = 8 ∨ type = 5)

/-! ## The buffer -/

structure Buffer where
  /-- The bytes that `bitstream_` has. -/
  room : Nat
  /-- `end - bitstream_`. -/
  limit : Int

/-- The buffer before a unit is written behind `pos` bytes. -/
def Buffer.grow (b : Buffer) (pos nal_len : Nat) : Buffer :=
  if (pos + nal_len + 32 : Int) > b.limit then
    let exp := (pos + nal_len + 32 + 4095) / 4096 * 4096
    ⟨exp, exp⟩
  else b

/-- The `while (m = ms_queue_get(nalus))` of both copies. -/
def nalus_loop : Buffer → List UInt8 → Bool → List (List UInt8) →
    Except Fault (Buffer × List UInt8 × Bool)
  | b, frame, key, [] => .ok (b, frame, key)
  | b, frame, key, nal :: nalus => do
    let b := b.grow frame.length nal.length
    let (bytes, sets_key) ← copy_nal nal
    let frame ← put b.room frame bytes
    nalus_loop b frame (key || sets_key) nalus

/-- The bytes up to `dst`, and what the caller gets through its pointers. -/
structure Frame where
  bytes : List UInt8
  /-- `*bits` points to the bytes. -/
  bits : Bool
  need_init : Bool
  key : Bool

/-- The player. Its `bitstream_` has `bitstream_buf_` bytes. -/
structure Render where
  bitstream_buf_ : Nat

def Render.nalus2frame (r : Render) (nalus : List (List UInt8)) :
    Except Fault (Render × Frame) := do
  let (b, bytes, key) ← nalus_loop ⟨r.bitstream_buf_, r.bitstream_buf_⟩ [] false nalus
  return (⟨b.room⟩, ⟨bytes, true, false, key⟩)

/-- The dump filter. -/
structure Dump where
  /-- The bytes that `bitstream_` has. -/
  room : Nat
  /-- What stood in memory. -/
  bitstream_buf_ : Int

def Dump.nalus2frame (d : Dump) (nalus : List (List UInt8)) : Except Fault (Dump × Frame) := do
  let (b, bytes, key) ← nalus_loop ⟨d.room, d.bitstream_buf_⟩ [] false nalus
  return ({ d with room := b.room }, ⟨bytes, false, false, key⟩)

/-! ## What a frame holds -/

/-- A body that a reader takes for the unit. -/
structure Escaped (nal body : List UInt8) : Prop where
  no_short_code : ∀ b < 3, ¬ [0, 0, b] <:+: body
  back : unescape 0 body = nal

/-- The units, each behind 00 00 00 01 and escaped. -/
def FrameOf (nals : List (List UInt8)) (bytes : List UInt8) : Prop :=
  ∃ bodies, List.Forall₂ Escaped nals bodies ∧
    bytes = bodies.flatMap fun body => 0 :: 0 :: 0 :: 1 :: body

/-! ## When a unit is copied right -/

/-- The unit has four bytes, is not copied as it is, and every byte of emulation prevention is
due before a byte that is not the second or third one, is not 03, has three bytes behind it, and
does not come two bytes behind another one. -/
structure Copyable (nal : List UInt8) : Prop where
  long : 4 ≤ nal.length
  coded : ∀ x rest, nal = 0 :: x :: 0 :: 1 :: rest → x = 0
  due : ∀ j, Due 0 nal j →
    3 ≤ j ∧ nal[j]? ≠ some 3 ∧ j + 3 < nal.length ∧ ¬ Due 0 nal (j - 2)

/-- The buffer has room for each unit with its start code and the bytes that are put in. -/
def Fits : Buffer → Nat → List (List UInt8) → Prop
  | _, _, [] => True
  | b, pos, nal :: nals =>
    let b := b.grow pos nal.length
    let pos := pos + (4 + (escape 0 nal).length)
    pos ≤ b.room ∧ Fits b pos nals

/-! ## The scan -/

theorem ok_of_return {α β : Type} {x : Except Fault α} {f : α → β} {b : β}
    (h : (do let a ← x; return f a) = .ok b) : ∃ a, x = .ok a ∧ f a = b := by
  obtain ⟨a, ha, hfa⟩ := bind_ok h
  exact ⟨a, ha, Except.ok.inj hfa⟩

/-- The scan puts in no more bytes than there are due, whatever stands before. -/
theorem copy_rest_length {src out : List UInt8} (h : copy_rest src = .ok out) (z : Nat) :
    out.length ≤ (escape z src).length := by
  induction src using copy_rest.induct generalizing out z with
  | case1 b0 b1 b2 b3 src hmatch ih =>
    obtain ⟨rfl, rfl, hb⟩ := hmatch
    rw [copy_rest, if_pos ⟨rfl, rfl, hb⟩] at h
    obtain ⟨rest, hrest, rfl⟩ := ok_of_return h
    obtain ⟨z', hz'⟩ := length_escape_window z (UInt8.le_of_lt hb) (b3 :: src)
    have hle := ih hrest z'
    simp only [List.length_cons] at hz' ⊢
    omega
  | case2 b0 b1 b2 b3 src hmatch ih =>
    rw [copy_rest, if_neg hmatch] at h
    obtain ⟨rest, hrest, rfl⟩ := ok_of_return h
    obtain ⟨z', hz'⟩ := length_escape_cons z b0 (b1 :: b2 :: b3 :: src)
    have hle := ih hrest z'
    rw [List.length_cons]
    omega
  | case3 b0 b1 b2 =>
    obtain rfl := Except.ok.inj h
    exact le_length_escape z _
  | case4 src hlong hthree =>
    rw [copy_rest] at h
    · cases h
    · exact hlong
    · exact hthree

/-- What holds of the bytes behind `z` zeros from which the scan starts. -/
def RestCopied (z : Nat) (src : List UInt8) : Prop :=
  3 ≤ src.length ∧ ∀ j, Due z src j →
    2 ≤ j ∧ src[j]? ≠ some 3 ∧ j + 3 < src.length ∧ ¬ Due z src (j - 2)

theorem return_ok_iff {α β : Type} {x : Except Fault α} {f : α → β} {a : α}
    (hf : ∀ a', f a' = f a → a' = a) :
    (do let a ← x; return f a) = Except.ok (f a) ↔ x = .ok a := by
  constructor
  · intro h
    obtain ⟨a', ha', heq⟩ := ok_of_return h
    rw [ha', hf a' heq]
  · rintro rfl
    rfl

/-- What is asked of a place behind the bytes of `front` is asked without them. -/
theorem spaced_behind (front : List UInt8) {z z' : Nat} {src : List UInt8}
    (hshift : ∀ j, Due z (front ++ src) (j + front.length) ↔ Due z' src j) {j : Nat}
    (htwo : 2 ≤ j) :
    ((front ++ src)[j + front.length]? ≠ some 3 ∧
        j + front.length + 3 < (front ++ src).length ∧
        ¬ Due z (front ++ src) (j + front.length - 2)) ↔
      src[j]? ≠ some 3 ∧ j + 3 < src.length ∧ ¬ Due z' src (j - 2) := by
  have hlen : j + front.length + 3 < front.length + src.length ↔ j + 3 < src.length := by omega
  rw [List.getElem?_append_right (Nat.le_add_left _ _), Nat.add_sub_cancel, List.length_append,
    hlen, Nat.sub_add_comm htwo, hshift]

/-- A match of the scan. -/
theorem restCopied_match {b2 : UInt8} (hb : b2 < 3) (src : List UInt8) :
    RestCopied 0 (0 :: 0 :: b2 :: src) ↔ RestCopied (zeros 0 b2) src := by
  have hshift : ∀ j, Due 0 (0 :: 0 :: b2 :: src) (j + 3) ↔ Due (zeros 0 b2) src j := by
    intro j
    rw [due_succ_plain (by omega), due_succ_plain (by simp),
      due_succ_due ⟨by simp, UInt8.le_of_lt hb⟩]
  have hno0 : ¬ Due 0 (0 :: 0 :: b2 :: src) 0 := not_due_start (by omega) _
  have hno1 : ¬ Due 0 (0 :: 0 :: b2 :: src) 1 := by
    rw [due_succ_plain (by omega)]
    exact not_due_start (by simp) _
  have hyes2 : Due 0 (0 :: 0 :: b2 :: src) 2 := by
    rw [due_succ_plain (by omega), due_succ_plain (by simp), due_zero]
    exact ⟨by simp, UInt8.le_of_lt hb⟩
  have hrest0 : ¬ Due (zeros 0 b2) src 0 := not_due_start (by have := zeros_le b2; omega) _
  have hspaced {j : Nat} (htwo : 2 ≤ j) :=
    @spaced_behind [0, 0, b2] 0 (zeros 0 b2) src hshift j htwo
  constructor
  · rintro ⟨-, h⟩
    have hlong := (h 2 hyes2).2.2.1
    refine ⟨by simp only [List.length_cons] at hlong; omega, fun j hj => ?_⟩
    have hplace := (h (j + 3) ((hshift j).mpr hj)).2
    have htwo : 2 ≤ j := by
      by_contra hlt
      obtain rfl | rfl : j = 0 ∨ j = 1 := by omega
      · exact hrest0 hj
      · exact hplace.2.2 hyes2
    exact ⟨htwo, (hspaced htwo).mp hplace⟩
  · rintro ⟨hlong, h⟩
    refine ⟨by simp only [List.length_cons]; omega, fun j hj => ?_⟩
    match j with
    | 0 => exact absurd hj hno0
    | 1 => exact absurd hj hno1
    | 2 =>
      refine ⟨Nat.le_refl 2, fun h3 => ?_, by simp only [List.length_cons]; omega, hno0⟩
      obtain rfl : b2 = 3 := Option.some.inj h3
      exact absurd hb (by decide)
    | j + 3 =>
      obtain ⟨htwo, hplace⟩ := h j ((hshift j).mp hj)
      exact ⟨by omega, (hspaced htwo).mpr hplace⟩

/-- A byte that the scan copies by itself. -/
theorem restCopied_step {z : Nat} {b0 b1 b2 b3 : UInt8} {src : List UInt8}
    (hmatch : ¬ (b0 = 0 ∧ b1 = 0 ∧ b2 < 3)) (hplain : ¬ (2 ≤ z ∧ b0 ≤ 3)) :
    RestCopied z (b0 :: b1 :: b2 :: b3 :: src) ↔
      RestCopied (zeros z b0) (b1 :: b2 :: b3 :: src) := by
  have hshift := due_succ_plain hplain (b1 :: b2 :: b3 :: src)
  constructor
  · rintro ⟨-, h⟩
    refine ⟨by simp, fun j hj => ?_⟩
    obtain ⟨htwo, hplace⟩ := h (j + 1) ((hshift j).mpr hj)
    match j with
    | 0 => omega
    | 1 =>
      -- two zeros, and a byte up to 03 that is not 03: a match
      have hno1 : ¬ (2 ≤ zeros z b0 ∧ b1 ≤ 3) := fun hdue =>
        absurd (h 1 ((hshift 0).mpr ((due_zero _ _ _).mpr hdue))).1 (by omega)
      rw [due_succ_plain hno1, due_zero] at hj
      obtain rfl := eq_zero_of_zeros (Nat.le_of_succ_le hj.1)
      obtain rfl := eq_zero_of_zeros (by simpa using hj.1 : 1 ≤ zeros z b0)
      have hthree : b2 ≠ 3 := fun h3 => hplace.1 (by rw [h3]; rfl)
      exact absurd ⟨rfl, rfl, (UInt8.lt_or_eq_of_le hj.2).resolve_right hthree⟩
        hmatch
    | k + 2 => exact ⟨by omega, (spaced_behind [b0] hshift (by omega)).mp hplace⟩
  · rintro ⟨-, h⟩
    refine ⟨by simp, fun j hj => ?_⟩
    match j with
    | 0 => exact absurd ((due_zero _ _ _).mp hj) hplain
    | j + 1 =>
      obtain ⟨htwo, hplace⟩ := h j ((hshift j).mp hj)
      exact ⟨by omega, (spaced_behind [b0] hshift htwo).mpr hplace⟩

/-- The scan gives the escape of what it has read if and only if every byte is due where the
scan looks for it. -/
theorem copy_rest_iff (z : Nat) (src : List UInt8) :
    copy_rest src = .ok (escape z src) ↔ RestCopied z src := by
  induction src using copy_rest.induct generalizing z with
  | case1 b0 b1 b2 b3 src hmatch ih =>
    obtain ⟨rfl, rfl, hb⟩ := hmatch
    rw [copy_rest, if_pos ⟨rfl, rfl, hb⟩]
    obtain rfl | rfl | hz : z = 0 ∨ z = 1 ∨ 2 ≤ z := by omega
    · rw [restCopied_match hb, ← ih, escape_plain (by omega), escape_plain (by simp),
        escape_due ⟨by simp, UInt8.le_of_lt hb⟩]
      exact return_ok_iff (f := fun rest => 0 :: 0 :: 3 :: b2 :: rest)
        fun rest h => by simpa using h
    · refine iff_of_false (fun h => ?_) fun h => ?_
      · obtain ⟨rest, -, hrest⟩ := ok_of_return h
        rw [escape_plain (by omega), escape_due ⟨by simp, by decide⟩] at hrest
        simp at hrest
      · have hdue : Due 1 (0 :: 0 :: b2 :: b3 :: src) 1 := by
          rw [due_succ_plain (by omega), due_zero]
          exact ⟨by simp, by decide⟩
        exact absurd (h.2 1 hdue).1 (by omega)
    · refine iff_of_false (fun h => ?_) fun h => ?_
      · obtain ⟨rest, -, hrest⟩ := ok_of_return h
        rw [escape_due ⟨hz, by decide⟩] at hrest
        simp at hrest
      · exact absurd (h.2 0 ((due_zero _ _ _).mpr ⟨hz, by decide⟩)).1 (by omega)
  | case2 b0 b1 b2 b3 src hmatch ih =>
    rw [copy_rest, if_neg hmatch]
    by_cases hdue : 2 ≤ z ∧ b0 ≤ 3
    · refine iff_of_false (fun h => ?_) fun h => ?_
      · -- the byte that is due is missing, and the scan does not make up for it
        obtain ⟨rest, hrest, heq⟩ := ok_of_return h
        rw [escape_due hdue] at heq
        have hlen := congrArg List.length heq
        have hle := copy_rest_length hrest (zeros 0 b0)
        simp only [List.length_cons] at hlen
        omega
      · exact absurd (h.2 0 ((due_zero _ _ _).mpr hdue)).1 (by omega)
    · rw [restCopied_step hmatch hdue, ← ih, escape_plain hdue]
      exact return_ok_iff (f := fun rest => b0 :: rest) fun rest h => by simpa using h
  | case3 b0 b1 b2 =>
    have hcopy : copy_rest [b0, b1, b2] = .ok [b0, b1, b2] := rfl
    rw [hcopy, Except.ok.injEq, eq_comm, escape_eq_iff]
    constructor
    · exact fun h => ⟨Nat.le_refl 3, fun j hj => absurd hj (h j)⟩
    · exact fun h j hj => by
        have hlt := (h.2 j hj).2.2.1
        simp at hlt
  | case4 src hlong hthree =>
    refine iff_of_false (fun h => ?_) fun h => ?_
    · rw [copy_rest] at h
      · cases h
      · exact hlong
      · exact hthree
    · match src, h.1 with
      | [b0, b1, b2], _ => exact hthree b0 b1 b2 rfl
      | b0 :: b1 :: b2 :: b3 :: src, _ => exact hlong b0 b1 b2 b3 src rfl

/-! ## A unit -/

/-- What the first four bytes of a unit decide. -/
theorem copied_whole_iff {src : List UInt8} {b : Bool} (h : copied_whole src = .ok b) :
    b = true ↔ ∃ x rest, src = 0 :: x :: 0 :: 1 :: rest ∧ x ≠ 0 := by
  unfold copied_whole at h
  obtain ⟨b0, h0, h⟩ := bind_ok h
  by_cases hb0 : b0 = 0
  · rw [if_neg (not_not.mpr hb0)] at h
    obtain ⟨b1, h1, h⟩ := bind_ok h
    by_cases hb1 : b1 = 0
    · rw [if_pos hb1] at h
      obtain rfl := Except.ok.inj h
      refine iff_of_false Bool.false_ne_true ?_
      rintro ⟨x, rest, rfl, hx⟩
      exact hx ((Except.ok.inj h1).trans hb1)
    · rw [if_neg hb1] at h
      obtain ⟨b2, h2, h⟩ := bind_ok h
      by_cases hb2 : b2 = 0
      · rw [if_neg (not_not.mpr hb2)] at h
        obtain ⟨b3, h3, h⟩ := bind_ok h
        obtain rfl := Except.ok.inj h
        rw [decide_eq_true_eq]
        constructor
        · rintro rfl
          match src, h0, h1, h2, h3 with
          | c0 :: c1 :: c2 :: c3 :: rest, h0, h1, h2, h3 =>
            obtain rfl := (Except.ok.inj h0).trans hb0
            obtain rfl := Except.ok.inj h1
            obtain rfl := (Except.ok.inj h2).trans hb2
            obtain rfl := Except.ok.inj h3
            exact ⟨_, rest, rfl, hb1⟩
        · rintro ⟨x, rest, rfl, -⟩
          exact (Except.ok.inj h3).symm
      · rw [if_pos hb2] at h
        obtain rfl := Except.ok.inj h
        refine iff_of_false Bool.false_ne_true ?_
        rintro ⟨x, rest, rfl, -⟩
        exact hb2 (Except.ok.inj h2).symm
  · rw [if_pos hb0] at h
    obtain rfl := Except.ok.inj h
    refine iff_of_false Bool.false_ne_true ?_
    rintro ⟨x, rest, rfl, -⟩
    exact hb0 (Except.ok.inj h0).symm

theorem copied_whole_long {src : List UInt8} (h : 4 ≤ src.length) :
    ∃ b, copied_whole src = .ok b := by
  match src, h with
  | b0 :: b1 :: b2 :: b3 :: src, _ =>
    have h0 : byte (b0 :: b1 :: b2 :: b3 :: src) 0 = .ok b0 := rfl
    have h1 : byte (b0 :: b1 :: b2 :: b3 :: src) 1 = .ok b1 := rfl
    have h2 : byte (b0 :: b1 :: b2 :: b3 :: src) 2 = .ok b2 := rfl
    have h3 : byte (b0 :: b1 :: b2 :: b3 :: src) 3 = .ok b3 := rfl
    unfold copied_whole
    simp only [h0, h1, h2, h3, ok_bind, pure_eq_ok]
    split
    · exact ⟨_, rfl⟩
    · split
      · exact ⟨_, rfl⟩
      · split <;> exact ⟨_, rfl⟩

/-- A unit that is copied is copied whole, or scanned behind its first byte. -/
theorem copy_nal_cases {nal bytes : List UInt8} {key : Bool}
    (h : copy_nal nal = .ok (bytes, key)) :
    (bytes = nal ∧ ∃ x rest, nal = 0 :: x :: 0 :: 1 :: rest ∧ x ≠ 0) ∨
      (∀ x rest, nal = 0 :: x :: 0 :: 1 :: rest → x = 0) ∧
        ∃ b0 src rest, nal = b0 :: src ∧ copy_rest src = .ok rest ∧
          bytes = 0 :: 0 :: 0 :: 1 :: b0 :: rest := by
  unfold copy_nal at h
  cases hwhole : copied_whole nal with
  | error e =>
    rw [hwhole] at h
    cases h
  | ok b =>
    have hiff := copied_whole_iff hwhole
    rw [hwhole, ok_bind] at h
    cases b with
    | true =>
      rw [if_pos rfl] at h
      obtain ⟨rfl, rfl⟩ := Prod.mk.inj (Except.ok.inj h)
      exact .inl ⟨rfl, hiff.mp rfl⟩
    | false =>
      rw [if_neg Bool.false_ne_true] at h
      refine .inr ⟨fun x rest hnal => ?_, ?_⟩
      · by_contra hx
        exact Bool.false_ne_true (hiff.mpr ⟨x, rest, hnal, hx⟩)
      · match nal with
        | [] => cases h
        | b0 :: src =>
          obtain ⟨rest, hrest, heq⟩ := ok_of_return h
          obtain ⟨rfl, -⟩ := Prod.mk.inj heq
          exact ⟨b0, src, rest, rfl, hrest, rfl⟩

theorem escape_first (b0 : UInt8) (src : List UInt8) :
    escape 0 (b0 :: src) = b0 :: escape (zeros 0 b0) src := escape_plain (by omega) src

/-- No unit is written with more bytes than its start code and its escape. -/
theorem copy_nal_length {nal bytes : List UInt8} {key : Bool}
    (h : copy_nal nal = .ok (bytes, key)) : bytes.length ≤ 4 + (escape 0 nal).length := by
  rcases copy_nal_cases h with ⟨rfl, -⟩ | ⟨-, b0, src, rest, rfl, hrest, rfl⟩
  · have hle := le_length_escape 0 bytes
    omega
  · have hle := copy_rest_length hrest (zeros 0 b0)
    rw [escape_first]
    simp only [List.length_cons]
    omega

theorem due_rest (b0 : UInt8) (src : List UInt8) (j : Nat) :
    Due 0 (b0 :: src) (j + 1) ↔ Due (zeros 0 b0) src j := due_succ_plain (by omega) src j

theorem restCopied_of_copyable {b0 : UInt8} {src : List UInt8} (h : Copyable (b0 :: src)) :
    RestCopied (zeros 0 b0) src := by
  refine ⟨Nat.le_of_succ_le_succ h.long, fun j hj => ?_⟩
  obtain ⟨hthree, hplace⟩ := h.due (j + 1) ((due_rest b0 src j).mpr hj)
  have htwo : 2 ≤ j := by omega
  exact ⟨htwo, (spaced_behind [b0] (due_rest b0 src) htwo).mp hplace⟩

theorem copyable_of_restCopied {b0 : UInt8} {src : List UInt8}
    (hcoded : ∀ x rest, b0 :: src = 0 :: x :: 0 :: 1 :: rest → x = 0)
    (h : RestCopied (zeros 0 b0) src) : Copyable (b0 :: src) := by
  refine ⟨Nat.succ_le_succ h.1, hcoded, fun j hj => ?_⟩
  cases j with
  | zero => exact absurd hj (not_due_start (by omega) _)
  | succ j =>
    obtain ⟨htwo, hplace⟩ := h.2 j ((due_rest b0 src j).mp hj)
    exact ⟨by omega, (spaced_behind [b0] (due_rest b0 src) htwo).mpr hplace⟩

/-- The unit is written behind its start code and escaped. -/
theorem copy_nal_iff (nal : List UInt8) :
    (∃ key, copy_nal nal = .ok (0 :: 0 :: 0 :: 1 :: escape 0 nal, key)) ↔ Copyable nal := by
  constructor
  · rintro ⟨key, h⟩
    rcases copy_nal_cases h with ⟨heq, -⟩ | ⟨hcoded, b0, src, rest, rfl, hrest, heq⟩
    · have hlen := congrArg List.length heq
      have hle := le_length_escape 0 nal
      simp only [List.length_cons] at hlen
      omega
    · rw [escape_first] at heq
      simp only [List.cons.injEq, true_and] at heq
      subst heq
      exact copyable_of_restCopied hcoded ((copy_rest_iff _ _).mp hrest)
  · intro h
    match nal, h with
    | [], h => exact absurd h.long (by simp)
    | b0 :: src, h =>
      have hrest := (copy_rest_iff _ _).mpr (restCopied_of_copyable h)
      obtain ⟨b, hwhole⟩ := copied_whole_long h.long
      have hfalse : b = false := by
        by_contra hb
        obtain ⟨x, rest, hnal, hx⟩ := (copied_whole_iff hwhole).mp (by simpa using hb)
        exact hx (h.coded x rest hnal)
      subst hfalse
      refine ⟨b0 &&& 0x1f = 7 ∨ b0 &&& 0x1f = 8 ∨ b0 &&& 0x1f = 5, ?_⟩
      unfold copy_nal
      rw [hwhole, ok_bind, if_neg Bool.false_ne_true, escape_first]
      have hb0 : byte (b0 :: src) 0 = .ok b0 := rfl
      rw [hb0, ok_bind]
      dsimp only
      rw [List.drop_succ_cons, List.drop_zero, hrest]
      rfl

/-! ## The queue -/

/-- The units, each behind its start code and in its shortest form. -/
def shortest (nals : List (List UInt8)) : List UInt8 :=
  nals.flatMap fun nal => 0 :: 0 :: 0 :: 1 :: escape 0 nal

theorem length_shortest_cons (nal : List UInt8) (nals : List (List UInt8)) :
    (shortest (nal :: nals)).length = 4 + (escape 0 nal).length + (shortest nals).length := by
  unfold shortest
  rw [List.flatMap_cons]
  simp only [List.length_append, List.length_cons]
  omega

theorem escaped_escape (nal : List UInt8) : Escaped nal (escape 0 nal) where
  no_short_code := (clean_iff _).mp (clean_escape 0 nal)
  back := unescape_escape 0 nal

theorem escaped_shortest {nal body : List UInt8} (h : Escaped nal body) :
    (escape 0 nal).length ≤ body.length ∧
      (body.length ≤ (escape 0 nal).length → body = escape 0 nal) :=
  escape_shortest ((clean_iff body).mpr h.no_short_code) h.back

theorem frameOf_cons (nal : List UInt8) (nals : List (List UInt8)) (bytes : List UInt8) :
    FrameOf (nal :: nals) bytes ↔ ∃ body rest, Escaped nal body ∧ FrameOf nals rest ∧
      bytes = 0 :: 0 :: 0 :: 1 :: body ++ rest := by
  constructor
  · rintro ⟨bodies, hbodies, rfl⟩
    cases hbodies with
    | @cons _ body _ bodies hbody hbodies =>
      exact ⟨body, _, hbody, ⟨bodies, hbodies, rfl⟩, List.flatMap_cons⟩
  · rintro ⟨body, rest, hbody, ⟨bodies, hbodies, rfl⟩, rfl⟩
    exact ⟨body :: bodies, .cons hbody hbodies, rfl⟩

theorem frameOf_length {nals : List (List UInt8)} {bytes : List UInt8} (h : FrameOf nals bytes) :
    (shortest nals).length ≤ bytes.length := by
  induction nals generalizing bytes with
  | nil => exact Nat.zero_le _
  | cons nal nals ih =>
    obtain ⟨body, rest, hbody, hrest, rfl⟩ := (frameOf_cons nal nals bytes).mp h
    have hle := ih hrest
    have hshort := (escaped_shortest hbody).1
    rw [length_shortest_cons, List.length_append]
    simp only [List.length_cons]
    omega

theorem put_ok_iff {room : Nat} {pbuf bytes out : List UInt8} :
    put room pbuf bytes = .ok out ↔ pbuf.length + bytes.length ≤ room ∧ out = pbuf ++ bytes := by
  unfold put
  split
  · rename_i h
    rw [Except.ok.injEq, eq_comm, and_iff_right h]
  · rename_i h
    exact iff_of_false nofun fun h' => h h'.1

/-- One turn of the loop. -/
theorem nalus_loop_cons {b : Buffer} {frame : List UInt8} {key : Bool} {nal : List UInt8}
    {nals : List (List UInt8)} {r : Buffer × List UInt8 × Bool} :
    nalus_loop b frame key (nal :: nals) = .ok r ↔ ∃ bytes k, copy_nal nal = .ok (bytes, k) ∧
      frame.length + bytes.length ≤ (b.grow frame.length nal.length).room ∧
      nalus_loop (b.grow frame.length nal.length) (frame ++ bytes) (key || k) nals = .ok r := by
  rw [nalus_loop]
  constructor
  · intro h
    obtain ⟨⟨bytes, k⟩, hnal, h⟩ := bind_ok h
    obtain ⟨out, hput, h⟩ := bind_ok h
    obtain ⟨hroom, rfl⟩ := put_ok_iff.mp hput
    exact ⟨bytes, k, hnal, hroom, h⟩
  · rintro ⟨bytes, k, hnal, hroom, h⟩
    rw [hnal, ok_bind]
    dsimp only
    rw [put_ok_iff.mpr ⟨hroom, rfl⟩, ok_bind]
    exact h

theorem length_written (frame nal : List UInt8) :
    (frame ++ 0 :: 0 :: 0 :: 1 :: escape 0 nal).length =
      frame.length + (4 + (escape 0 nal).length) := by
  simp only [List.length_append, List.length_cons]
  omega

/-- The loop writes no more than the shortest form of the queue. -/
theorem nalus_loop_length {b b' : Buffer} {frame frame' : List UInt8} {key key' : Bool}
    {nals : List (List UInt8)} (h : nalus_loop b frame key nals = .ok (b', frame', key')) :
    ∃ out, frame' = frame ++ out ∧ out.length ≤ (shortest nals).length := by
  induction nals generalizing b frame key with
  | nil =>
    obtain ⟨-, heq⟩ := Prod.mk.inj (Except.ok.inj h)
    obtain ⟨rfl, -⟩ := Prod.mk.inj heq
    exact ⟨[], (List.append_nil _).symm, Nat.zero_le _⟩
  | cons nal nals ih =>
    obtain ⟨bytes, k, hnal, -, hrest⟩ := nalus_loop_cons.mp h
    obtain ⟨out, rfl, hle⟩ := ih hrest
    have hlen := copy_nal_length hnal
    refine ⟨bytes ++ out, List.append_assoc _ _ _, ?_⟩
    rw [length_shortest_cons, List.length_append]
    omega

/-- The loop appends the frame of the queue if and only if every unit is copied right and fits.
Its output is never longer than the shortest frame, so no unit can make up for another. -/
theorem nalus_loop_iff (b : Buffer) (frame : List UInt8) (key : Bool) (nals : List (List UInt8)) :
    (∃ b' bytes key', nalus_loop b frame key nals = .ok (b', frame ++ bytes, key') ∧
        FrameOf nals bytes) ↔
      (∀ nal ∈ nals, Copyable nal) ∧ Fits b frame.length nals := by
  induction nals generalizing b frame key with
  | nil =>
    refine iff_of_true ⟨b, [], key, ?_, [], .nil, rfl⟩ ⟨nofun, trivial⟩
    rw [List.append_nil]
    rfl
  | cons nal nals ih =>
    constructor
    · rintro ⟨b', bytes, key', hloop, hframe⟩
      obtain ⟨written, k, hnal, hroom, hrest⟩ := nalus_loop_cons.mp hloop
      obtain ⟨out, hout, hle⟩ := nalus_loop_length hrest
      obtain ⟨body, rest, hbody, hbodies, rfl⟩ := (frameOf_cons nal nals bytes).mp hframe
      rw [List.append_assoc] at hout
      have heq := List.append_cancel_left hout
      have hlen := congrArg List.length heq
      have hwritten := copy_nal_length hnal
      have hshort := escaped_shortest hbody
      have hrestlen := frameOf_length hbodies
      simp only [List.length_append, List.length_cons] at hlen
      obtain ⟨hhead, rfl⟩ := List.append_inj heq (by simp only [List.length_cons]; omega)
      rw [hshort.2 (by omega)] at hhead
      subst hhead
      have hcopy := (copy_nal_iff nal).mp ⟨k, hnal⟩
      obtain ⟨hall, hfits⟩ := (ih _ _ _).mp ⟨b', rest, key', by
        rw [hrest, List.append_assoc, hshort.2 (by omega)], hbodies⟩
      rw [length_written] at hfits
      refine ⟨List.forall_mem_cons.mpr ⟨hcopy, hall⟩, ?_, hfits⟩
      rwa [← length_written, List.length_append]
    · rintro ⟨hall, hroom, hfits⟩
      obtain ⟨hcopy, hall⟩ := List.forall_mem_cons.mp hall
      obtain ⟨k, hnal⟩ := (copy_nal_iff nal).mpr hcopy
      rw [← length_written] at hroom hfits
      obtain ⟨b', bytes, key', hrest, hframe⟩ := (ih _ _ (key || k)).mpr ⟨hall, hfits⟩
      rw [List.append_assoc] at hrest
      refine ⟨b', _, key', nalus_loop_cons.mpr ⟨_, k, hnal, ?_, hrest⟩,
        (frameOf_cons nal nals _).mpr ⟨_, bytes, escaped_escape nal, hframe, rfl⟩⟩
      rwa [List.length_append] at hroom

/-- What a copy gives its caller is right if and only if the loop is. -/
theorem frame_iff {σ : Type} (b : Buffer) (nals : List (List UInt8))
    (result : Buffer × List UInt8 × Bool → σ × Frame)
    (hbytes : ∀ r, (result r).2.bytes = r.2.1) :
    (∃ s f, (do let r ← nalus_loop b [] false nals; return result r) = .ok (s, f) ∧
        FrameOf nals f.bytes) ↔ (∀ nal ∈ nals, Copyable nal) ∧ Fits b 0 nals := by
  refine Iff.trans ?_ (nalus_loop_iff b [] false nals)
  constructor
  · rintro ⟨s, f, hcall, hframe⟩
    obtain ⟨⟨b', bytes, key'⟩, hloop, heq⟩ := ok_of_return hcall
    have hf := hbytes (b', bytes, key')
    rw [heq] at hf
    dsimp only at hf
    rw [hf] at hframe
    exact ⟨b', bytes, key', hloop, hframe⟩
  · rintro ⟨b', bytes, key', hloop, hframe⟩
    refine ⟨_, _, by rw [hloop]; rfl, ?_⟩
    rw [hbytes]
    exact hframe

/-! ## The law -/

/-- Both copies stay inside the units and the buffer and leave the right frame in it if and only
if every unit is copied right and fits, the player with the size that it keeps of its buffer and
the dump filter with whatever stood in memory. The dump filter never tells where the frame is. -/
theorem a_frame_is_right_when_its_units_are_copied_and_fit (nals : List (List UInt8)) :
    (∀ r : Render, (∃ r' f, r.nalus2frame nals = .ok (r', f) ∧ FrameOf nals f.bytes) ↔
        (∀ nal ∈ nals, Copyable nal) ∧ Fits ⟨r.bitstream_buf_, r.bitstream_buf_⟩ 0 nals) ∧
      ∀ d : Dump,
        ((∃ d' f, d.nalus2frame nals = .ok (d', f) ∧ FrameOf nals f.bytes) ↔
          (∀ nal ∈ nals, Copyable nal) ∧ Fits ⟨d.room, d.bitstream_buf_⟩ 0 nals) ∧
        ∀ d' f, d.nalus2frame nals = .ok (d', f) → f.bits = false := by
  refine ⟨fun r => ?_, fun d => ⟨?_, fun d' f h => ?_⟩⟩
  · exact frame_iff ⟨r.bitstream_buf_, r.bitstream_buf_⟩ nals
      (fun x => (Render.mk x.1.room, ⟨x.2.1, true, false, x.2.2⟩)) fun _ => rfl
  · exact frame_iff ⟨d.room, d.bitstream_buf_⟩ nals
      (fun x => ({ d with room := x.1.room }, ⟨x.2.1, false, false, x.2.2⟩)) fun _ => rfl
  · obtain ⟨x, -, heq⟩ := bind_ok h
    obtain ⟨-, rfl⟩ := Prod.mk.inj (Except.ok.inj heq)
    rfl

/-- The three bytes after the loop are read behind the end of a unit of one byte. -/
theorem a_unit_of_one_byte_is_read_behind_its_end :
    (Render.mk 65536).nalus2frame [[0x65]] = .error .outOfBounds := by
  rfl

end zonekey_mcu.nal_frames
