-- Texts of bytes in which 00 00 00, 00 00 01 and 00 00 02 do not occur: a byte 03 is put
-- between two zeros and a byte up to 03, and a reader takes it out again.
import Mathlib.Data.List.Infix
import Mathlib.Tactic.Common

namespace emulation

/-- The zeros at the end of a text, one byte later. -/
def zeros (z : Nat) (b : UInt8) : Nat := if b = 0 then z + 1 else 0

/-- The text with the bytes 03 put in, behind `z` zeros. The count starts again behind one. -/
def escape : Nat → List UInt8 → List UInt8
  | _, [] => []
  | z, b :: text =>
    if 2 ≤ z ∧ b ≤ 3 then 3 :: b :: escape (zeros 0 b) text else b :: escape (zeros z b) text

/-- The text without the bytes 03 that stand behind two zeros. -/
def unescape : Nat → List UInt8 → List UInt8
  | _, [] => []
  | z, b :: text =>
    if 2 ≤ z ∧ b = 3 then unescape 0 text else b :: unescape (zeros z b) text

/-- No byte below 03 comes behind two zeros. -/
def Clean : Nat → List UInt8 → Prop
  | _, [] => True
  | z, b :: text => ¬ (2 ≤ z ∧ b < 3) ∧ Clean (zeros z b) text

/-- The count of zeros behind a text into which the bytes were put. -/
def zeros_after : Nat → List UInt8 → Nat
  | z, [] => z
  | z, b :: text => zeros_after (if 2 ≤ z ∧ b ≤ 3 then zeros 0 b else zeros z b) text

/-- A byte 03 is put in before the byte at `j`. -/
def Due (z : Nat) (text : List UInt8) (j : Nat) : Prop :=
  2 ≤ zeros_after z (text.take j) ∧ ∃ b, text[j]? = some b ∧ b ≤ 3

@[simp] theorem zeros_zero (z : Nat) : zeros z 0 = z + 1 := if_pos rfl

theorem zeros_of_ne {b : UInt8} (h : b ≠ 0) (z : Nat) : zeros z b = 0 := if_neg h

theorem eq_zero_of_zeros {z : Nat} {b : UInt8} (h : 1 ≤ zeros z b) : b = 0 := by
  by_contra hb
  rw [zeros_of_ne hb] at h
  omega

theorem zeros_le (b : UInt8) : zeros 0 b ≤ 1 := by
  unfold zeros
  split <;> omega

theorem escape_due {z : Nat} {b : UInt8} (h : 2 ≤ z ∧ b ≤ 3) (text : List UInt8) :
    escape z (b :: text) = 3 :: b :: escape (zeros 0 b) text := if_pos h

theorem escape_plain {z : Nat} {b : UInt8} (h : ¬ (2 ≤ z ∧ b ≤ 3)) (text : List UInt8) :
    escape z (b :: text) = b :: escape (zeros z b) text := if_neg h

/-! ## Round trip -/

theorem le_length_escape (z : Nat) (text : List UInt8) :
    text.length ≤ (escape z text).length := by
  induction text generalizing z with
  | nil => exact Nat.le_refl _
  | cons b text ih =>
    by_cases hdue : 2 ≤ z ∧ b ≤ 3
    · rw [escape_due hdue, List.length_cons, List.length_cons, List.length_cons]
      exact Nat.le_succ_of_le (Nat.succ_le_succ (ih _))
    · rw [escape_plain hdue, List.length_cons, List.length_cons]
      exact Nat.succ_le_succ (ih _)

theorem length_escape_cons (z : Nat) (b : UInt8) (text : List UInt8) :
    ∃ z', (escape z' text).length + 1 ≤ (escape z (b :: text)).length := by
  by_cases hdue : 2 ≤ z ∧ b ≤ 3
  · exact ⟨zeros 0 b, by rw [escape_due hdue, List.length_cons, List.length_cons]; omega⟩
  · exact ⟨zeros z b, by rw [escape_plain hdue, List.length_cons]⟩

/-- A byte is put in somewhere in 00 00 00 up to 00 00 03. -/
theorem length_escape_window (z : Nat) {b : UInt8} (hb : b ≤ 3) (text : List UInt8) :
    ∃ z', (escape z' text).length + 4 ≤ (escape z (0 :: 0 :: b :: text)).length := by
  obtain hz | hz | hz : z = 0 ∨ z = 1 ∨ 2 ≤ z := by omega
  · subst hz
    refine ⟨zeros 0 b, ?_⟩
    rw [escape_plain (by omega), zeros_zero, escape_plain (by omega), zeros_zero,
      escape_due ⟨by omega, hb⟩]
    simp only [List.length_cons]
    omega
  · subst hz
    obtain ⟨z', hz'⟩ := length_escape_cons 1 b text
    refine ⟨z', ?_⟩
    rw [escape_plain (by omega), zeros_zero, escape_due ⟨by omega, by decide⟩, zeros_zero]
    simp only [List.length_cons, Nat.zero_add]
    omega
  · obtain ⟨z₂, h₂⟩ := length_escape_cons 1 0 (b :: text)
    obtain ⟨z₁, h₁⟩ := length_escape_cons z₂ b text
    refine ⟨z₁, ?_⟩
    rw [escape_due ⟨hz, by decide⟩, zeros_zero]
    simp only [List.length_cons, Nat.zero_add] at h₂ h₁ ⊢
    omega

theorem clean_escape (z : Nat) (text : List UInt8) : Clean z (escape z text) := by
  induction text generalizing z with
  | nil => trivial
  | cons b text ih =>
    by_cases hdue : 2 ≤ z ∧ b ≤ 3
    · rw [escape_due hdue]
      refine ⟨fun h => absurd h.2 (by decide), ?_⟩
      rw [zeros_of_ne (by decide)]
      exact ⟨fun h => by omega, ih _⟩
    · rw [escape_plain hdue]
      exact ⟨fun h => hdue ⟨h.1, UInt8.le_of_lt h.2⟩, ih _⟩

theorem unescape_escape (z : Nat) (text : List UInt8) : unescape z (escape z text) = text := by
  induction text generalizing z with
  | nil => rfl
  | cons b text ih =>
    by_cases hdue : 2 ≤ z ∧ b ≤ 3
    · rw [escape_due hdue, unescape, if_pos ⟨hdue.1, rfl⟩, unescape, if_neg (by omega), ih]
    · have hb : ¬ (2 ≤ z ∧ b = 3) := fun h => hdue ⟨h.1, h.2 ▸ UInt8.le_refl _⟩
      rw [escape_plain hdue, unescape, if_neg hb, ih]

/-- Behind two zeros the escape of a text is no shorter than at its start. -/
theorem escape_eq_of_start (z : Nat) (text : List UInt8) (h : 2 ≤ z) :
    escape z text = escape 0 text ∨ escape z text = 3 :: escape 0 text := by
  cases text with
  | nil => exact .inl rfl
  | cons b text =>
    have hplain : escape 0 (b :: text) = b :: escape (zeros 0 b) text :=
      escape_plain (by omega) text
    by_cases hdue : b ≤ 3
    · exact .inr (by rw [escape_due ⟨h, hdue⟩, hplain])
    · have hne : b ≠ 0 := fun hb => hdue (hb ▸ by decide)
      exact .inl (by rw [escape_plain fun h => hdue h.2, hplain, zeros_of_ne hne, zeros_of_ne hne])

/-- The escape is the shortest clean text that a reader takes for the text, and the only one of
its length. The induction is on the other text. -/
theorem escape_shortest {z : Nat} {body text : List UInt8} (hclean : Clean z body)
    (h : unescape z body = text) :
    (escape z text).length ≤ body.length ∧
      (body.length ≤ (escape z text).length → body = escape z text) := by
  induction body generalizing z text with
  | nil =>
    obtain rfl : [] = text := h
    exact ⟨Nat.le_refl _, fun _ => rfl⟩
  | cons b body ih =>
    obtain ⟨hb, hrest⟩ := hclean
    by_cases hthree : 2 ≤ z ∧ b = 3
    · obtain ⟨hz, rfl⟩ := hthree
      rw [unescape, if_pos ⟨hz, rfl⟩] at h
      rw [zeros_of_ne (by decide)] at hrest
      obtain ⟨hle, heq⟩ := ih hrest h
      rcases escape_eq_of_start z text hz with hstart | hstart
      · rw [hstart, List.length_cons]
        exact ⟨by omega, fun h => by omega⟩
      · rw [hstart, List.length_cons, List.length_cons]
        exact ⟨by omega, fun h => by rw [heq (by omega)]⟩
    · rw [unescape, if_neg hthree] at h
      subst h
      have hplain : ¬ (2 ≤ z ∧ b ≤ 3) := by
        rintro ⟨hz, hle⟩
        rcases UInt8.lt_or_eq_of_le hle with hlt | heq
        · exact hb ⟨hz, hlt⟩
        · exact hthree ⟨hz, heq⟩
      obtain ⟨hle, heq⟩ := ih hrest rfl
      rw [escape_plain hplain, List.length_cons, List.length_cons]
      exact ⟨by omega, fun h => by rw [← heq (by omega)]⟩

/-! ## Where a byte is due -/

theorem due_zero (z : Nat) (b : UInt8) (text : List UInt8) :
    Due z (b :: text) 0 ↔ 2 ≤ z ∧ b ≤ 3 := by
  simp [Due, zeros_after]

theorem due_succ_due {z : Nat} {b : UInt8} (h : 2 ≤ z ∧ b ≤ 3) (text : List UInt8) (j : Nat) :
    Due z (b :: text) (j + 1) ↔ Due (zeros 0 b) text j := by
  unfold Due
  rw [List.take_succ_cons, zeros_after, if_pos h, List.getElem?_cons_succ]

theorem due_succ_plain {z : Nat} {b : UInt8} (h : ¬ (2 ≤ z ∧ b ≤ 3)) (text : List UInt8)
    (j : Nat) : Due z (b :: text) (j + 1) ↔ Due (zeros z b) text j := by
  unfold Due
  rw [List.take_succ_cons, zeros_after, if_neg h, List.getElem?_cons_succ]

theorem not_due_start {z : Nat} (hz : z < 2) (text : List UInt8) : ¬ Due z text 0 :=
  fun h => absurd h.1 (by rw [List.take_zero, zeros_after]; omega)

theorem due_lt {z : Nat} {text : List UInt8} {j : Nat} (h : Due z text j) : j < text.length := by
  obtain ⟨-, b, hb, -⟩ := h
  exact (List.getElem?_eq_some_iff.mp hb).1

/-- The escape changes nothing if and only if no byte is due. -/
theorem escape_eq_iff (z : Nat) (text : List UInt8) :
    escape z text = text ↔ ∀ j, ¬ Due z text j := by
  induction text generalizing z with
  | nil => exact iff_of_true rfl fun j h => absurd (due_lt h) (Nat.not_lt_zero j)
  | cons b text ih =>
    by_cases hdue : 2 ≤ z ∧ b ≤ 3
    · refine iff_of_false (fun heq => ?_) fun h => h 0 ((due_zero z b text).mpr hdue)
      have hlen := congrArg List.length heq
      have hle := le_length_escape (zeros 0 b) text
      rw [escape_due hdue, List.length_cons, List.length_cons, List.length_cons] at hlen
      omega
    · rw [escape_plain hdue, List.cons.injEq, and_iff_right rfl, ih]
      constructor
      · intro h j hj
        cases j with
        | zero => exact hdue ((due_zero z b text).mp hj)
        | succ j => exact h j ((due_succ_plain hdue text j).mp hj)
      · exact fun h j hj => h (j + 1) ((due_succ_plain hdue text j).mpr hj)

/-! ## Clean texts -/

theorem clean_iff_behind {z : Nat} (hz : z ≤ 2) (text : List UInt8) :
    Clean z text ↔ ∀ b < 3, ¬ [0, 0, b] <:+: List.replicate z 0 ++ text := by
  induction text generalizing z with
  | nil =>
    refine iff_of_true trivial fun b _ h => ?_
    have hlen := h.length_le
    rw [List.append_nil, List.length_replicate] at hlen
    exact absurd hlen (by simp; omega)
  | cons c text ih =>
    unfold Clean
    by_cases hc : c = 0
    · subst hc
      have hmove : List.replicate z 0 ++ 0 :: text = List.replicate (z + 1) 0 ++ text := by
        rw [List.replicate_succ', List.append_assoc]
        rfl
      rw [zeros_zero, hmove]
      obtain hlt | rfl : z < 2 ∨ z = 2 := by omega
      · rw [ih (by omega)]
        exact and_iff_right (fun h => by omega)
      · refine iff_of_false (fun h => h.1 ⟨Nat.le_refl 2, by decide⟩) fun h => ?_
        exact h 0 (by decide) ⟨[], text, rfl⟩
    · rw [zeros_of_ne hc, ih (Nat.zero_le 2)]
      have hc' : ¬ 0 = c := fun h => hc h.symm
      obtain rfl | rfl | rfl : z = 0 ∨ z = 1 ∨ z = 2 := by omega
      · simp [List.infix_cons_iff, List.cons_prefix_cons, hc']
      · simp [List.replicate, List.infix_cons_iff, List.cons_prefix_cons, hc']
      · simp only [List.replicate, List.cons_append, List.nil_append, List.infix_cons_iff,
          List.cons_prefix_cons, hc', Nat.le_refl, true_and, false_and, false_or,
          List.nil_prefix, and_true]
        constructor
        · rintro ⟨hlt, hrest⟩ b hb (rfl | hin)
          · exact hlt hb
          · exact hrest b hb hin
        · exact fun h => ⟨fun hlt => h c hlt (.inl rfl), fun b hb hin => h b hb (.inr hin)⟩

theorem clean_iff (text : List UInt8) :
    Clean 0 text ↔ ∀ b < 3, ¬ [0, 0, b] <:+: text := clean_iff_behind (Nat.zero_le 2) text

end emulation
