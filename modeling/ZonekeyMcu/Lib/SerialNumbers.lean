-- Numbers that wrap at `M`. Two numbers less than half of `M` apart still tell by their
-- distance which of them came first.
import Mathlib.Tactic.Common
import Mathlib.Tactic.Ring

namespace serial_numbers

/-- How far `a` is after `b`, on the circle of the numbers below `M`. -/
def ahead (M a b : Nat) : Nat := (M - b + a) % M

/-- Less than half of `M` apart, before they wrapped. -/
def Near (M i j : Nat) : Prop := 2 * (i - j) < M ∧ 2 * (j - i) < M

theorem Near.symm {M i j : Nat} (h : Near M i j) : Near M j i := ⟨h.2, h.1⟩

section

variable {M i j : Nat}

/-- The distance of the wrapped numbers is that of the numbers, wrapped. -/
theorem ahead_wrapped (hM : 0 < M) (i j : Nat) :
    (ahead M (i % M) (j % M) : Int) = ((i : Int) - j) % M := by
  have hj : j % M ≤ M := Nat.le_of_lt (Nat.mod_lt j hM)
  unfold ahead
  push_cast [hj]
  rw [Int.emod_eq_emod_iff_emod_sub_eq_zero]
  apply Int.emod_eq_zero_of_dvd
  refine ⟨1 + j / M - i / M, ?_⟩
  have hi := Int.emod_add_mul_ediv i M
  have hj := Int.emod_add_mul_ediv j M
  calc (M : Int) - j % M + i % M - (i - j)
      = M - j % M + i % M - ((i % M + M * (i / M)) - (j % M + M * (j / M))) := by rw [hi, hj]
    _ = M * (1 + j / M - i / M) := by ring

/-- A number is ahead by less than half of `M` exactly when it came no sooner. -/
theorem ahead_lt_half (hnear : Near M i j) : 2 * ahead M (i % M) (j % M) < M ↔ j ≤ i := by
  obtain ⟨hij, hji⟩ := hnear
  have hM : 0 < M := by omega
  have hahead := ahead_wrapped hM i j
  rcases Nat.lt_or_ge i j with hlt | hle
  · rw [← Int.add_emod_right, Int.emod_eq_of_lt (by omega) (by omega)] at hahead
    omega
  · rw [Int.emod_eq_of_lt (by omega) (by omega)] at hahead
    omega

theorem wrapped_inj (hnear : Near M i j) : i % M = j % M ↔ i = j := by
  refine ⟨fun h => ?_, fun h => h ▸ rfl⟩
  have hij := ahead_lt_half hnear
  have hji := ahead_lt_half hnear.symm
  rw [h] at hij hji
  omega

end

end serial_numbers
