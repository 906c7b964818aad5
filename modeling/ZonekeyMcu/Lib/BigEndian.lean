-- Numbers in bytes, the high byte first: the bytes that hold a number, and the
-- number that some bytes hold.
import Mathlib.Tactic.Common
import Mathlib.Tactic.Ring

namespace big_endian

/-- The low `n` bytes of `v`. -/
def bytes_of : Nat → Nat → List UInt8
  | 0, _ => []
  | n + 1, v => UInt8.ofNat (v / 256 ^ n) :: bytes_of n v

def value_of : List UInt8 → Nat
  | [] => 0
  | b :: bs => b.toNat * 256 ^ bs.length + value_of bs

@[simp] theorem length_bytes_of (n v : Nat) : (bytes_of n v).length = n := by
  induction n with
  | zero => rfl
  | succ n ih => rw [bytes_of, List.length_cons, ih]

theorem value_of_bytes_of (n v : Nat) : value_of (bytes_of n v) = v % 256 ^ n := by
  induction n with
  | zero => simp [bytes_of, value_of, Nat.mod_one]
  | succ n ih =>
    have hbyte : (UInt8.ofNat (v / 256 ^ n)).toNat = v / 256 ^ n % 256 := UInt8.toNat_ofNat
    rw [bytes_of, value_of, length_bytes_of, hbyte, ih, Nat.pow_succ, Nat.mod_mul]
    ring

theorem value_of_bytes_of_lt {n v : Nat} (h : v < 256 ^ n) : value_of (bytes_of n v) = v := by
  rw [value_of_bytes_of, Nat.mod_eq_of_lt h]

theorem value_of_lt (bs : List UInt8) : value_of bs < 256 ^ bs.length := by
  induction bs with
  | nil => exact Nat.one_pos
  | cons b bs ih =>
    have hb : b.toNat + 1 ≤ 256 := b.toNat_lt
    have hmul := Nat.mul_le_mul_right (256 ^ bs.length) hb
    rw [Nat.add_mul, Nat.one_mul] at hmul
    rw [value_of, List.length_cons, Nat.pow_succ, Nat.mul_comm _ 256]
    omega

/-- The high byte of a number, and the rest. -/
theorem value_of_cons_div (b : UInt8) (bs : List UInt8) :
    value_of (b :: bs) / 256 ^ bs.length = b.toNat := by
  have hlt := value_of_lt bs
  rw [value_of, Nat.mul_comm, Nat.mul_add_div (Nat.pow_pos (by decide)), Nat.div_eq_of_lt hlt,
    Nat.add_zero]

theorem value_of_cons_mod (b : UInt8) (bs : List UInt8) :
    value_of (b :: bs) % 256 ^ bs.length = value_of bs := by
  have hlt := value_of_lt bs
  rw [value_of, Nat.mul_comm, Nat.mul_add_mod, Nat.mod_eq_of_lt hlt]

theorem bytes_of_mod (n v : Nat) : bytes_of n (v % 256 ^ n) = bytes_of n v := by
  induction n generalizing v with
  | zero => rfl
  | succ n ih =>
    have hhigh : v % 256 ^ (n + 1) / 256 ^ n = v / 256 ^ n % 256 := by
      rw [Nat.pow_succ, Nat.mod_mul_right_div_self]
    have hlow : v % 256 ^ (n + 1) % 256 ^ n = v % 256 ^ n := by
      rw [Nat.pow_succ, Nat.mod_mul_right_mod]
    have hbyte : UInt8.ofNat (v / 256 ^ n % 256) = UInt8.ofNat (v / 256 ^ n) :=
      UInt8.ofNat_mod_size
    rw [bytes_of, bytes_of, hhigh, hbyte, ← ih (v % 256 ^ (n + 1)), hlow, ih]

theorem bytes_of_value_of (bs : List UInt8) : bytes_of bs.length (value_of bs) = bs := by
  induction bs with
  | nil => rfl
  | cons b bs ih =>
    rw [List.length_cons, bytes_of, value_of_cons_div, ← bytes_of_mod, value_of_cons_mod, ih,
      UInt8.ofNat_toNat]

/-- A field behind its length is whole, or the data ends before it does. -/
theorem field_whole_or_cut {n : Nat} {data : List UInt8} (h : n ≤ data.length) :
    (∃ field rest, data = bytes_of n field.length ++ (field ++ rest) ∧
        field.length < 256 ^ n ∧ field.length = value_of (data.take n)) ∨
      data.length < n + value_of (data.take n) := by
  have htake : (data.take n).length = n := by
    rw [List.length_take]
    omega
  rcases Nat.lt_or_ge data.length (n + value_of (data.take n)) with hcut | hwhole
  · exact .inr hcut
  · have hsize : ((data.drop n).take (value_of (data.take n))).length =
        value_of (data.take n) := by
      rw [List.length_take, List.length_drop]
      omega
    have hlt := value_of_lt (data.take n)
    have hbytes := bytes_of_value_of (data.take n)
    rw [htake] at hlt hbytes
    refine .inl ⟨_, (data.drop n).drop (value_of (data.take n)), ?_, ?_, hsize⟩
    · rw [hsize, hbytes, List.take_append_drop, List.take_append_drop]
    · rwa [hsize]

end big_endian
