import Mathlib.Analysis.SpecialFunctions.Log.Basic

/-! Exponential decay and the factors that one-step methods put in its place: the error of
a step. -/

namespace Decay

open Real

variable {x : ℝ}

/-- The factor of an explicit step, against the exponential. The error is of the second
order. -/
theorem abs_one_sub_sub_exp_le (hx : 0 ≤ x) : |1 - x - exp (-x)| ≤ x ^ 2 / 2 := by
  have hLow : 1 - x ≤ exp (-x) := by
    have hExp := add_one_le_exp (-x)
    linarith
  have hHigh : exp (-x) ≤ 1 - x + x ^ 2 / 2 := by
    have hExp := quadratic_le_exp_of_nonneg hx
    have hPos : 0 < 1 + x + x ^ 2 / 2 := by positivity
    have hProduct : 1 ≤ (1 - x + x ^ 2 / 2) * (1 + x + x ^ 2 / 2) := by
      nlinarith [sq_nonneg (x ^ 2)]
    rw [exp_neg]
    calc (exp x)⁻¹ ≤ (1 + x + x ^ 2 / 2)⁻¹ := inv_anti₀ hPos hExp
      _ ≤ 1 - x + x ^ 2 / 2 := (inv_le_iff_one_le_mul₀ hPos).mpr hProduct
  rw [abs_sub_comm, abs_of_nonneg (sub_nonneg.mpr hLow)]
  linarith

/-- The factor of a trapezoidal step, against the exponential. The error is of the third
order. -/
theorem abs_trapezoidal_sub_exp_le (hx : 0 ≤ x) (hx' : x < 2) :
    |(2 - x) / (2 + x) - exp (-x)| ≤ x ^ 3 / 12 := by
  have hSum : 0 < 2 + x := by linarith
  have hDiff : 0 < 2 - x := by linarith
  have hLow : (2 - x) / (2 + x) ≤ exp (-x) := by
    have hLog : x ≤ log ((2 + x) / (2 - x)) := by
      have hBound := le_log_one_add_of_nonneg (div_nonneg (mul_nonneg zero_le_two hx) hDiff.le)
      have hLeft : 2 * (2 * x / (2 - x)) / (2 * x / (2 - x) + 2) = x := by
        field_simp
        ring
      have hRight : 1 + 2 * x / (2 - x) = (2 + x) / (2 - x) := by
        field_simp
        ring
      rwa [hLeft, hRight] at hBound
    rw [exp_neg, ← inv_div]
    exact inv_anti₀ (exp_pos x) ((le_log_iff_exp_le (div_pos hSum hDiff)).mp hLog)
  have hHigh : exp (-x) ≤ (2 - x) / (2 + x) + x ^ 3 / 12 := by
    have hExp : 1 + x + x ^ 2 / 2 + x ^ 3 / 6 ≤ exp x := by
      have hSeries := sum_le_exp_of_nonneg hx 4
      norm_num [Finset.sum_range_succ, Nat.factorial] at hSeries
      exact hSeries
    have hPos : 0 < 1 + x + x ^ 2 / 2 + x ^ 3 / 6 := by positivity
    have hProduct : (2 - x + x ^ 3 / 6) * (1 + x + x ^ 2 / 2 + x ^ 3 / 6) =
        2 + x + (x ^ 5 / 12 + x ^ 6 / 36) := by ring
    have hInverse : (1 + x + x ^ 2 / 2 + x ^ 3 / 6)⁻¹ ≤ (2 - x + x ^ 3 / 6) / (2 + x) := by
      rw [inv_le_iff_one_le_mul₀ hPos, div_mul_eq_mul_div, one_le_div hSum, hProduct]
      exact le_add_of_nonneg_right (by positivity)
    have hCubic : x ^ 3 / 6 / (2 + x) ≤ x ^ 3 / 12 := by
      rw [div_le_iff₀ hSum]
      nlinarith [pow_nonneg hx 4]
    rw [exp_neg]
    calc (exp x)⁻¹ ≤ (1 + x + x ^ 2 / 2 + x ^ 3 / 6)⁻¹ := inv_anti₀ hPos hExp
      _ ≤ (2 - x + x ^ 3 / 6) / (2 + x) := hInverse
      _ = (2 - x) / (2 + x) + x ^ 3 / 6 / (2 + x) := add_div _ _ _
      _ ≤ (2 - x) / (2 + x) + x ^ 3 / 12 := by gcongr
  rw [abs_sub_comm, abs_of_nonneg (sub_nonneg.mpr hLow)]
  linarith

end Decay
