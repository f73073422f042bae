import Coursework.Cooling.Solvers
import Coursework.Library.AffineIteration

/-! The inner loop of the trapezoidal solver: when it ends, and how far it then is
from the solution of the trapezoidal equation. -/

namespace Cooling

open Loop AffineIteration

variable {TSurround h r Tn : ℚ} {fuel : Nat}

/-- The solution of the trapezoidal equation for one step. -/
def exactStep (TSurround h r Tn : ℚ) : ℚ :=
  TSurround + (2 - h * r) / (2 + h * r) * (Tn - TSurround)

section Step

/-- The equation of the implicit step, freed of the division. -/
theorem exactStep_mul (hDen : 2 + h * r ≠ 0) : exactStep TSurround h r Tn * (2 + h * r) =
    TSurround * (2 + h * r) + (2 - h * r) * (Tn - TSurround) := by
  unfold exactStep
  field_simp

/-- The exact step shrinks the distance to the surroundings by one factor, the same in each
step. -/
theorem exactStep_eq (hz : 0 ≤ h * r / 2) : exactStep TSurround h r Tn =
    TSurround + (1 - h * r / 2) / (1 + h * r / 2) * (Tn - TSurround) := by
  have hDen : 2 + h * r ≠ 0 := by linarith
  have hDen' : 1 + h * r / 2 ≠ 0 := by linarith
  unfold exactStep
  field_simp

/-- The trapezoidal equation has one solution. -/
theorem eq_exactStep_iff (hz : 0 ≤ h * r / 2) (T : ℚ) :
    T = Tn + (h / 2) * (-r * (Tn - TSurround) - r * (T - TSurround)) ↔
      T = exactStep TSurround h r Tn := by
  have hDen : 2 + h * r ≠ 0 := by linarith
  have hExact : exactStep TSurround h r Tn * _ = _ := exactStep_mul hDen
  constructor
  · intro hT
    apply mul_right_cancel₀ hDen
    rw [hExact]
    linear_combination 2 * hT
  · rintro rfl
    linear_combination hExact / 2

/-- The body of the inner loop is affine around the exact step. -/
theorem innerBody_Tk (hz : 0 ≤ h * r / 2) (s : Inner) :
    (innerBody TSurround h r Tn s).Tk =
      affine (exactStep TSurround h r Tn) (-(h * r / 2)) s.Tk := by
  have hDen : 2 + h * r ≠ 0 := by linarith
  have hExact : exactStep TSurround h r Tn * _ = _ := exactStep_mul hDen
  unfold innerBody affine
  linear_combination -hExact / 2

/-- The first guess is as far from the exact step as an explicit step is. -/
theorem eulerStep_sub_exactStep (hz : 0 ≤ h * r / 2) :
    eulerStep TSurround h r Tn - exactStep TSurround h r Tn =
      -(2 * (h * r / 2) ^ 2 / (1 + h * r / 2) * (Tn - TSurround)) := by
  have hDen : 2 + h * r ≠ 0 := by linarith
  have hDen' : 1 + h * r / 2 ≠ 0 := by linarith
  unfold eulerStep exactStep
  field_simp
  ring

end Step

section InnerLoop

/-- The temperature after `k` rounds of the inner loop. -/
def guess (TSurround h r Tn : ℚ) (k : Nat) : ℚ :=
  (affine (exactStep TSurround h r Tn) (-(h * r / 2)))^[k] (eulerStep TSurround h r Tn)

/-- The rounds of the inner loop compute the guesses one after the other. -/
theorem iterate_innerBody_Tk (hz : 0 ≤ h * r / 2) (k : Nat) :
    ((innerBody TSurround h r Tn)^[k] (innerStart TSurround h r Tn)).Tk =
      guess TSurround h r Tn k := by
  induction k with
  | zero => rfl
  | succ k ih =>
      rw [Function.iterate_succ_apply', innerBody_Tk hz, ih, guess, guess,
        Function.iterate_succ_apply']

/-- The tolerance is the distance between the last two temperatures. -/
theorem iterate_innerBody_tolerance (hz : 0 ≤ h * r / 2) (k : Nat) :
    ((innerBody TSurround h r Tn)^[k + 1] (innerStart TSurround h r Tn)).tolerance =
      |guess TSurround h r Tn (k + 1) - guess TSurround h r Tn k| := by
  rw [← iterate_innerBody_Tk hz, ← iterate_innerBody_Tk hz, Function.iterate_succ_apply']
  rfl

/-- The inner loop returns the second of two close temperatures. -/
theorem innerLoop_some (hz : 0 ≤ h * r / 2) {s : Inner}
    (hRun : innerLoop TSurround h r fuel Tn = some s) :
    ∃ k, s.Tk = guess TSurround h r Tn (k + 1) ∧
      |guess TSurround h r Tn (k + 1) - guess TSurround h r Tn k| ≤ 1 / 20 := by
  obtain ⟨k, hs, hExit⟩ := whileDo_iterate hRun
  rw [decide_eq_false_iff_not, not_lt] at hExit
  cases k with
  | zero =>
      rw [hs] at hExit
      norm_num [innerStart] at hExit
  | succ k =>
      rw [hs, iterate_innerBody_tolerance hz] at hExit
      exact ⟨k, by rw [hs, iterate_innerBody_Tk hz], hExit⟩

/-- Two guesses within the tolerance end the loop. The fuel needed is the number of rounds to
them. -/
theorem innerLoop_ends (hz : 0 ≤ h * r / 2) {k : Nat}
    (hClose : |guess TSurround h r Tn (k + 1) - guess TSurround h r Tn k| ≤ 1 / 20) :
    ∃ fuel s, innerLoop TSurround h r fuel Tn = some s := by
  have hExit : decide (1 / 20 <
      ((innerBody TSurround h r Tn)^[k + 1] (innerStart TSurround h r Tn)).tolerance) = false := by
    rw [decide_eq_false_iff_not, not_lt, iterate_innerBody_tolerance hz]
    exact hClose
  exact ⟨_, whileDo_iterate_ends hExit⟩

/-- More fuel changes nothing about a loop that has ended. -/
theorem innerLoop_mono {fuel' : Nat} {s : Inner} (hFuel : fuel ≤ fuel')
    (hRun : innerLoop TSurround h r fuel Tn = some s) :
    innerLoop TSurround h r fuel' Tn = some s :=
  whileDo_mono hFuel (fun _ _ h => h) hRun

/-- The inner loop ends exactly when its map contracts or its first round
already changes little. -/
theorem innerLoop_ends_iff (hz : 0 ≤ h * r / 2) :
    (∃ fuel s, innerLoop TSurround h r fuel Tn = some s) ↔
      h * r / 2 < 1 ∨ 2 * (h * r / 2) ^ 2 * |Tn - TSurround| ≤ 1 / 20 := by
  have hFirst : |-(h * r / 2) - 1| * |eulerStep TSurround h r Tn - exactStep TSurround h r Tn| =
      2 * (h * r / 2) ^ 2 * |Tn - TSurround| := by
    have hDen : 2 + h * r ≠ 0 := by linarith
    have hDen' : 1 + h * r / 2 ≠ 0 := by linarith
    rw [eulerStep_sub_exactStep hz, ← abs_mul, ← abs_of_nonneg (by positivity :
      0 ≤ 2 * (h * r / 2) ^ 2), ← abs_mul]
    congr 1
    rw [abs_of_nonneg (by positivity)]
    field_simp
    ring
  have hClose : (∃ k, |guess TSurround h r Tn (k + 1) - guess TSurround h r Tn k| ≤ 1 / 20) ↔ _ :=
    exists_close_iff (by norm_num)
  rw [hFirst, abs_neg, abs_of_nonneg hz] at hClose
  rw [← hClose]
  constructor
  · rintro ⟨fuel, s, hRun⟩
    obtain ⟨k, -, hk⟩ := innerLoop_some hz hRun
    exact ⟨k, hk⟩
  · rintro ⟨k, hk⟩
    exact innerLoop_ends hz hk

/-- What the inner loop returns is close to the exact step. -/
theorem innerLoop_close (hz : 0 ≤ h * r / 2) {s : Inner}
    (hRun : innerLoop TSurround h r fuel Tn = some s) :
    |s.Tk - exactStep TSurround h r Tn| ≤ 1 / 20 * (h * r / 2) / (1 + h * r / 2) := by
  obtain ⟨k, hs, hClose⟩ := innerLoop_some hz hRun
  have hStep : guess TSurround h r Tn (k + 1) = affine _ _ (guess TSurround h r Tn k) :=
    Function.iterate_succ_apply' _ _ _
  rw [hStep] at hs hClose
  rw [hs, abs_affine_sub (by linarith), abs_neg, abs_of_nonneg hz, sub_neg_eq_add,
    mul_div_assoc (1 / 20)]
  gcongr

/-- When the inner loop ends, and how close to the solution of the trapezoidal
equation it then is. -/
theorem inner_loop_exact (hz : 0 ≤ h * r / 2) :
    ((∃ fuel s, innerLoop TSurround h r fuel Tn = some s) ↔
      h * r / 2 < 1 ∨ 2 * (h * r / 2) ^ 2 * |Tn - TSurround| ≤ 1 / 20) ∧
    ∃ TStar, (∀ T, T = Tn + (h / 2) * (-r * (Tn - TSurround) - r * (T - TSurround)) ↔ T = TStar) ∧
      ∀ fuel s, innerLoop TSurround h r fuel Tn = some s →
        |s.Tk - TStar| ≤ 1 / 20 * (h * r / 2) / (1 + h * r / 2) :=
  ⟨innerLoop_ends_iff hz, exactStep TSurround h r Tn, eq_exactStep_iff hz,
    fun _ _ hRun => innerLoop_close hz hRun⟩

theorem inner_loop_exact_sample : (∃ fuel s, innerLoop 19 30 (1 / 40) fuel 84 = some s) ∧
    ¬∃ fuel s, innerLoop 19 80 (1 / 40) fuel 84 = some s := by
  constructor
  · exact (inner_loop_exact (by norm_num)).1.mpr (Or.inl (by norm_num))
  · intro h
    have hEnds := (inner_loop_exact (by norm_num)).1.mp h
    norm_num [abs_of_pos] at hEnds

end InnerLoop

end Cooling
