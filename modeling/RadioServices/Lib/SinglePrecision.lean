import Mathlib.Data.Int.Log
import Mathlib.Data.Rat.Floor

namespace RadioServices.Lib.SinglePrecision

/-- The nearest integer, of two the even one. -/
def roundEven (y : ℚ) : Int :=
  if y - ⌊y⌋ < 1 / 2 then ⌊y⌋
  else if 1 / 2 < y - ⌊y⌋ then ⌊y⌋ + 1
  else if ⌊y⌋ % 2 = 0 then ⌊y⌋
  else ⌊y⌋ + 1

/-- The value of a number as a `float`, of 24 significant bits and any exponent. -/
def float (x : ℚ) : ℚ := roundEven (x * 2 ^ (23 - Int.log 2 |x|)) / 2 ^ (23 - Int.log 2 |x|)

theorem abs_roundEven_sub_le (y : ℚ) : |(roundEven y : ℚ) - y| ≤ 1 / 2 := by
  have hle := Int.floor_le y
  have hlt := Int.lt_floor_add_one y
  rw [roundEven, abs_le]
  split
  · constructor <;> linarith
  · split
    · push_cast
      constructor <;> linarith
    · split
      · constructor <;> linarith
      · push_cast
        constructor <;> linarith

/-- Rounding changes a number by half a unit of its last place at most. -/
theorem abs_float_sub_le (x : ℚ) : |float x - x| ≤ |x| / 2 ^ 24 := by
  by_cases hx : x = 0
  · rw [hx, float, zero_mul]
    have hzero : roundEven 0 = 0 := by simp [roundEven]
    rw [hzero]
    simp
  have hpos : 0 < |x| := abs_pos.mpr hx
  have hs : (0 : ℚ) < 2 ^ (23 - Int.log 2 |x|) := zpow_pos two_pos _
  have hscaled : (2 : ℚ) ^ 23 ≤ |x| * 2 ^ (23 - Int.log 2 |x|) := by
    have hlog := Int.zpow_log_le_self (b := 2) one_lt_two hpos
    calc (2 : ℚ) ^ 23 = 2 ^ Int.log 2 |x| * 2 ^ (23 - Int.log 2 |x|) := by
          rw [← zpow_add₀ two_ne_zero, add_sub_cancel]
          rfl
      _ ≤ |x| * 2 ^ (23 - Int.log 2 |x|) := by
          refine mul_le_mul_of_nonneg_right ?_ hs.le
          exact_mod_cast hlog
  rw [float]
  generalize (2 : ℚ) ^ (23 - Int.log 2 |x|) = s at hs hscaled ⊢
  have hround := abs_roundEven_sub_le (x * s)
  have hsub : (roundEven (x * s) : ℚ) / s - x = (roundEven (x * s) - x * s) / s := by
    field_simp
  rw [hsub, abs_div, abs_of_pos hs, div_le_div_iff₀ hs (by positivity)]
  linarith

section Bounds

variable {x : ℚ}

theorem abs_float_le (x : ℚ) : |float x| ≤ 65 / 64 * |x| := by
  have h := abs_float_sub_le x
  have habs := abs_nonneg x
  have hsub := abs_sub_abs_le_abs_sub (float x) x
  linarith

theorem le_float (hx : 0 ≤ x) : 63 / 64 * x ≤ float x := by
  have h := (abs_le.mp (abs_float_sub_le x)).1
  rw [abs_of_nonneg hx] at h
  linarith

end Bounds

section Exact

theorem le_roundEven {y : ℚ} {n : Int} (h : (n : ℚ) ≤ y) : n ≤ roundEven y := by
  have hfloor : n ≤ ⌊y⌋ := Int.le_floor.mpr h
  rw [roundEven]
  split
  · exact hfloor
  · split
    · omega
    · split
      · exact hfloor
      · omega

theorem roundEven_intCast (n : Int) : roundEven n = n := by
  rw [roundEven, Int.floor_intCast, sub_self, if_pos (by norm_num)]

theorem float_natCast {n : Nat} (h : n < 2 ^ 24) : float n = n := by
  rcases Nat.eq_zero_or_pos n with rfl | hpos
  · rw [float, Nat.cast_zero, zero_mul]
    have hzero := roundEven_intCast 0
    rw [Int.cast_zero] at hzero
    rw [hzero, Int.cast_zero, zero_div]
  have hlog : Nat.log 2 n ≤ 23 := Nat.lt_succ_iff.mp (Nat.log_lt_of_lt_pow hpos.ne' h)
  have hscale : (2 : ℚ) ^ (23 - Int.log 2 |(n : ℚ)|) = 2 ^ (23 - Nat.log 2 n) := by
    rw [Nat.abs_cast, Int.log_natCast, ← zpow_natCast, Nat.cast_sub hlog]
    rfl
  have hwhole : (n : ℚ) * 2 ^ (23 - Nat.log 2 n) = ((n * 2 ^ (23 - Nat.log 2 n) : Nat) : Int) := by
    push_cast
    rfl
  rw [float, hscale, hwhole, roundEven_intCast, ← hwhole]
  exact mul_div_cancel_right₀ _ (pow_ne_zero _ two_ne_zero)

theorem one_le_float {x : ℚ} (h : 1 ≤ x) : 1 ≤ float x := by
  have hpos : 0 < |x| := abs_pos.mpr (one_pos.trans_le h).ne'
  have hs : (0 : ℚ) < 2 ^ (23 - Int.log 2 |x|) := zpow_pos two_pos _
  have hlog : (0 : Int) ≤ Int.log 2 |x| := by
    rw [abs_of_pos (one_pos.trans_le h), Int.log_of_one_le_right 2 h]
    exact Int.natCast_nonneg _
  have hscaled : ((2 ^ 23 : Int) : ℚ) ≤ x * 2 ^ (23 - Int.log 2 |x|) := by
    have hlog := Int.zpow_log_le_self (b := 2) one_lt_two hpos
    calc ((2 ^ 23 : Int) : ℚ) = 2 ^ Int.log 2 |x| * 2 ^ (23 - Int.log 2 |x|) := by
          rw [← zpow_add₀ two_ne_zero, add_sub_cancel]
          norm_num
      _ ≤ x * 2 ^ (23 - Int.log 2 |x|) := by
          refine mul_le_mul_of_nonneg_right ?_ hs.le
          rw [abs_of_pos (one_pos.trans_le h)] at hlog ⊢
          exact_mod_cast hlog
  have hround : ((2 ^ 23 : Int) : ℚ) ≤ roundEven (x * 2 ^ (23 - Int.log 2 |x|)) := by
    exact_mod_cast le_roundEven hscaled
  have hle : (2 : ℚ) ^ (23 - Int.log 2 |x|) ≤ ((2 ^ 23 : Int) : ℚ) := by
    calc (2 : ℚ) ^ (23 - Int.log 2 |x|) ≤ 2 ^ (23 : Int) := zpow_le_zpow_right₀ one_le_two (by omega)
      _ = ((2 ^ 23 : Int) : ℚ) := by norm_num
  rw [float, one_le_div hs]
  exact hle.trans hround

end Exact

end RadioServices.Lib.SinglePrecision
