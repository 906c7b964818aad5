-- Pictures in memory: a list of values that holds row after row, each row `stride` values
-- wide. A picture is painted onto another one row by row.
import Mathlib.Tactic.Common

namespace raster

variable {α : Type}

/-! ## Values written over others -/

/-- The values of `xs` with `ys` written over them from place `k` on. -/
def overwrite (xs : List α) (k : Nat) (ys : List α) : List α :=
  xs.take k ++ (ys ++ xs.drop (k + ys.length))

section

variable {xs ys : List α} {k : Nat}

theorem length_overwrite (h : k + ys.length ≤ xs.length) :
    (overwrite xs k ys).length = xs.length := by
  unfold overwrite
  rw [List.length_append, List.length_append, List.length_take, List.length_drop]
  omega

theorem getElem?_overwrite (h : k + ys.length ≤ xs.length) (i : Nat) :
    (overwrite xs k ys)[i]? = if k ≤ i ∧ i < k + ys.length then ys[i - k]? else xs[i]? := by
  unfold overwrite
  have hlen : (xs.take k).length = k := by
    rw [List.length_take]
    omega
  by_cases hlow : i < k
  · rw [List.getElem?_append_left (by omega), List.getElem?_take_of_lt hlow,
      if_neg fun hin => absurd hin.1 (by omega)]
  · rw [List.getElem?_append_right (by omega), hlen]
    by_cases hin : i < k + ys.length
    · rw [if_pos ⟨by omega, hin⟩, List.getElem?_append_left (by omega)]
    · rw [if_neg fun hboth => hin hboth.2, List.getElem?_append_right (by omega),
        List.getElem?_drop]
      congr 1
      omega

end

theorem overwrite_nil (xs : List α) (k : Nat) : overwrite xs k [] = xs := by
  unfold overwrite
  rw [List.nil_append, List.length_nil, Nat.add_zero, List.take_append_drop]

/-- What ends in front of the values written stays. -/
theorem take_overwrite {xs : List α} {k n : Nat} (ys : List α) (hn : n ≤ k) (hk : k ≤ xs.length) :
    (overwrite xs k ys).take n = xs.take n := by
  have hlen : (xs.take k).length = k := List.length_take_of_le hk
  unfold overwrite
  rw [List.take_append_of_le_length (by omega), List.take_take, Nat.min_eq_left hn]

/-- What ends behind the values written ends with them. -/
theorem take_overwrite_end {xs : List α} {k : Nat} (ys : List α) (hk : k ≤ xs.length) :
    (overwrite xs k ys).take (k + ys.length) = xs.take k ++ ys := by
  have hboth : (xs.take k ++ ys).length = k + ys.length := by
    rw [List.length_append, List.length_take_of_le hk]
  unfold overwrite
  rw [← List.append_assoc, List.take_append_of_le_length (by omega),
    List.take_of_length_le (by omega)]

/-- `n` values of `xs` from place `k` on. -/
def piece (xs : List α) (k n : Nat) : List α := (xs.drop k).take n

theorem length_piece {xs : List α} {k n : Nat} (h : k + n ≤ xs.length) :
    (piece xs k n).length = n := by
  unfold piece
  rw [List.length_take, List.length_drop]
  omega

theorem getElem?_piece (xs : List α) {k n i : Nat} (hi : i < n) :
    (piece xs k n)[i]? = xs[k + i]? := by
  unfold piece
  rw [List.getElem?_take_of_lt hi, List.getElem?_drop]

/-! ## Rows -/

/-- The value in column `x` of row `y`. -/
def pixel (xs : List α) (stride x y : Nat) : Option α := xs[y * stride + x]?

/-- The values of a row are those of no other row. -/
theorem index_row {stride x y X Y n : Nat} (hx : x < stride) (hX : X + n ≤ stride) :
    Y * stride + X ≤ y * stride + x ∧ y * stride + x < Y * stride + X + n ↔
      y = Y ∧ X ≤ x ∧ x < X + n := by
  rcases Nat.lt_trichotomy y Y with hlt | rfl | hlt
  · have hrows : (y + 1) * stride ≤ Y * stride := Nat.mul_le_mul_right _ hlt
    rw [Nat.succ_mul] at hrows
    omega
  · omega
  · have hrows : (Y + 1) * stride ≤ y * stride := Nat.mul_le_mul_right _ hlt
    rw [Nat.succ_mul] at hrows
    omega

/-- A rectangle with its top left corner. -/
structure Rect where
  x : Nat
  y : Nat
  width : Nat
  height : Nat

def Rect.contains (r : Rect) (x y : Nat) : Prop :=
  r.x ≤ x ∧ x < r.x + r.width ∧ r.y ≤ y ∧ y < r.y + r.height

/-- `ys` shows `source` in the rectangle, and `xs` everywhere else. -/
structure Paints (stride : Nat) (r : Rect) (source : Nat → Nat → Option α) (xs ys : List α) :
    Prop where
  length_eq : ys.length = xs.length
  inside : ∀ x y, x < stride → r.contains x y → pixel ys stride x y = source x y
  outside : ∀ x y, x < stride → ¬ r.contains x y → pixel ys stride x y = pixel xs stride x y

theorem paints_nothing {stride X Y n : Nat} {source : Nat → Nat → Option α} (xs : List α) :
    Paints stride ⟨X, Y, n, 0⟩ source xs xs := by
  refine ⟨rfl, fun x y _ h => ?_, fun _ _ _ _ => rfl⟩
  unfold Rect.contains at h
  dsimp only at h
  omega

/-- Only what the source is inside the rectangle matters. -/
theorem Paints.congr {stride : Nat} {r : Rect} {source source' : Nat → Nat → Option α}
    {xs ys : List α} (h : Paints stride r source xs ys)
    (heq : ∀ x y, x < stride → r.contains x y → source x y = source' x y) :
    Paints stride r source' xs ys :=
  ⟨h.length_eq, fun x y hx hin => (h.inside x y hx hin).trans (heq x y hx hin), h.outside⟩

/-- Some values written into a row paint a rectangle of height 1. -/
theorem overwrite_paints {stride X Y : Nat} {xs row : List α} (source : Nat → Nat → Option α)
    (hX : X + row.length ≤ stride) (hlen : (Y + 1) * stride ≤ xs.length)
    (hrow : ∀ i, i < row.length → row[i]? = source (X + i) Y) :
    Paints stride ⟨X, Y, row.length, 1⟩ source xs (overwrite xs (Y * stride + X) row) := by
  have hfits : Y * stride + X + row.length ≤ xs.length := by
    rw [Nat.succ_mul] at hlen
    omega
  refine ⟨length_overwrite hfits, fun x y hx hin => ?_, fun x y hx hout => ?_⟩
  · obtain ⟨h1, h2, h3, h4⟩ := hin
    dsimp only at h1 h2 h3 h4
    obtain rfl : y = Y := by omega
    unfold pixel
    rw [getElem?_overwrite hfits, if_pos ((index_row hx hX).mpr ⟨rfl, h1, h2⟩)]
    have hi : y * stride + x - (y * stride + X) = x - X := by omega
    have hx' : X + (x - X) = x := by omega
    rw [hi, hrow (x - X) (by omega), hx']
  · unfold pixel
    rw [getElem?_overwrite hfits, if_neg]
    intro hin
    obtain ⟨rfl, h1, h2⟩ := (index_row hx hX).mp hin
    exact hout ⟨h1, h2, Nat.le_refl _, Nat.lt_succ_self _⟩

/-- Two rectangles, one below the other. -/
theorem Paints.below {stride X Y n h h' : Nat} {source : Nat → Nat → Option α}
    {xs ys zs : List α} (hxy : Paints stride ⟨X, Y, n, h⟩ source xs ys)
    (hyz : Paints stride ⟨X, Y + h, n, h'⟩ source ys zs) :
    Paints stride ⟨X, Y, n, h + h'⟩ source xs zs := by
  refine ⟨hyz.length_eq.trans hxy.length_eq, fun x y hx hin => ?_, fun x y hx hout => ?_⟩
  · obtain ⟨h1, h2, h3, h4⟩ := hin
    dsimp only at h1 h2 h3 h4
    by_cases hy : y < Y + h
    · rw [hyz.outside x y hx fun hin => absurd hin.2.2.1 (by dsimp only; omega)]
      exact hxy.inside x y hx ⟨h1, h2, h3, hy⟩
    · exact hyz.inside x y hx ⟨h1, h2, by dsimp only; omega, by dsimp only; omega⟩
  · have hno : ∀ y₀ k, Y ≤ y₀ → y₀ + k ≤ Y + (h + h') → ¬ Rect.contains ⟨X, y₀, n, k⟩ x y := by
      intro y₀ k hle hge hin
      obtain ⟨h1, h2, h3, h4⟩ := hin
      dsimp only at h1 h2 h3 h4
      exact hout ⟨h1, h2, by dsimp only; omega, by dsimp only; omega⟩
    rw [hyz.outside x y hx (hno _ _ (by omega) (by omega)),
      hxy.outside x y hx (hno _ _ (by omega) (by omega))]

end raster
