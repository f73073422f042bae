import Coursework.Cooling.Convergence
import Coursework.Library.Decay

/-! The two solvers against the analytical solution that they are plotted with: at which
times there are points, and how far a point is from the solution at its time. -/

namespace Cooling

open Loop AffineIteration

/-- `analytical_solution` at one of its times. -/
noncomputable def analyticalSolution (TInitial TSurround r t : ℝ) : ℝ :=
  TSurround + (TInitial - TSurround) * Real.exp (-r * t)

section Grid

variable {TInitial h tFinal : ℚ} {fuel : Nat} {temps times : List ℚ} {step : ℚ → Option ℚ}

def multiples (h : ℚ) (k : Nat) : List ℚ := (List.range (k + 1)).map fun n : Nat => (n : ℚ) * h

/-- The times of a run that is asked for `tFinal` minutes. -/
def grid (h tFinal : ℚ) : List ℚ := multiples h ⌈tFinal * 60 / h⌉₊

/-- The times of a run after `k` steps, all but the last before the final time. -/
structure OnGrid (h tFinal : ℚ) (k : Nat) (s : March) : Prop where
  t : s.t = k * h
  times : s.times = multiples h k
  temps : s.temps.length = k + 1
  before : ∀ j < k, j * h < tFinal * 60

/-- One round of the outer loop appends one temperature and the time at which it holds. -/
theorem OnGrid.march {k : Nat} {s u : March} (hs : OnGrid h tFinal k s)
    (hBefore : s.t < tFinal * 60) (hBody : marchBody step h s = some u) :
    OnGrid h tFinal (k + 1) u := by
  obtain ⟨T, -, rfl⟩ := Option.map_eq_some_iff.mp hBody
  have hNext : s.t + h = (k + 1 : Nat) * h := by
    rw [hs.t]
    push_cast
    ring
  refine ⟨hNext, ?_, ?_, fun j hj => ?_⟩
  · rw [multiples, List.range_succ, List.map_append, ← multiples, ← hs.times, List.map_singleton,
      ← hNext]
  · rw [List.length_append, hs.temps]
    rfl
  · cases Nat.lt_succ_iff_lt_or_eq.mp hj with
    | inl hj => exact hs.before j hj
    | inr hj =>
        rw [hj, ← hs.t]
        exact hBefore

/-- The last time is the first multiple of the step size at or after the final time. -/
theorem march_grid (hh : 0 < h) (hRun : march step h tFinal fuel TInitial = some (temps, times)) :
    times = grid h tFinal ∧ temps.length = times.length := by
  obtain ⟨s, hLoop, hResult⟩ := Option.map_eq_some_iff.mp hRun
  obtain ⟨rfl, rfl⟩ := Prod.mk.inj hResult
  have hInv := whileDo_invariant (I := fun u => ∃ k, OnGrid h tFinal k u)
    ⟨0, by simp, by simp [multiples], rfl, nofun⟩
    (fun u v ⟨k, hu⟩ hGuard hBody => ⟨k + 1, hu.march (of_decide_eq_true hGuard) hBody⟩) hLoop
  obtain ⟨⟨k, hk⟩, hExit⟩ := hInv
  have hEnd : tFinal * 60 ≤ k * h := by
    rw [← hk.t]
    exact not_lt.mp (of_decide_eq_false hExit)
  have hCount : ⌈tFinal * 60 / h⌉₊ = k := by
    apply le_antisymm
    · rwa [Nat.ceil_le, div_le_iff₀ hh]
    · by_contra hLess
      have hBefore := hk.before _ (not_le.mp hLess)
      have hCeil := Nat.le_ceil (tFinal * 60 / h)
      rw [div_le_iff₀ hh] at hCeil
      exact absurd hBefore hCeil.not_gt
  rw [grid, hCount, hk.times, hk.temps, multiples, List.length_map, List.length_range]
  exact ⟨rfl, rfl⟩

end Grid

section Accuracy

variable {TInitial TSurround h r tFinal : ℚ} {fuel : Nat} {temps times : List ℚ}
  {step : ℚ → Option ℚ} {g τ δ : ℝ}

/-- The solution starts at the initial temperature. -/
theorem analyticalSolution_zero (TInitial TSurround r : ℝ) :
    analyticalSolution TInitial TSurround r 0 = TInitial := by
  rw [analyticalSolution, mul_zero, Real.exp_zero]
  ring

/-- In a step of time the solution decays by a factor. -/
theorem analyticalSolution_add (TInitial TSurround r t h : ℝ) :
    analyticalSolution TInitial TSurround r (t + h) - TSurround =
      Real.exp (-(h * r)) * (analyticalSolution TInitial TSurround r t - TSurround) := by
  have hExp : Real.exp (-r * (t + h)) = Real.exp (-r * t) * Real.exp (-(h * r)) := by
    rw [← Real.exp_add]
    congr 1
    ring
  rw [analyticalSolution, analyticalSolution, hExp]
  ring

/-- The distance to the surroundings is never larger than at the start. -/
theorem abs_analyticalSolution_sub_le (TInitial TSurround : ℝ) {r t : ℝ} (hr : 0 ≤ r)
    (ht : 0 ≤ t) :
    |analyticalSolution TInitial TSurround r t - TSurround| ≤ |TInitial - TSurround| := by
  have hExp : Real.exp (-r * t) ≤ 1 := by
    rw [Real.exp_le_one_iff]
    nlinarith
  rw [analyticalSolution, add_sub_cancel_left, abs_mul, abs_of_pos (Real.exp_pos _)]
  exact mul_le_of_le_one_right (abs_nonneg _) hExp

/-- A step that multiplies by nearly the factor of the decay, up to some error, adds what
the factor is wrong by and that error. -/
theorem step_accuracy {T T' A A' Ts f d : ℝ} (hA' : A' - Ts = f * (A - Ts)) (hA : |A - Ts| ≤ d)
    (hStep : |T' - (Ts + g * (T - Ts))| ≤ δ) (hFactor : |g - f| ≤ τ) :
    |T' - A'| ≤ |g| * |T - A| + (δ + τ * d) := by
  have hSplit : T' - A' = (T' - (Ts + g * (T - Ts))) + (g * (T - A) + (g - f) * (A - Ts)) := by
    linear_combination -hA'
  calc |T' - A'|
      ≤ |T' - (Ts + g * (T - Ts))| + (|g * (T - A)| + |(g - f) * (A - Ts)|) := by
        rw [hSplit]
        exact (abs_add_le _ _).trans (by gcongr; exact abs_add_le _ _)
    _ ≤ δ + (|g| * |T - A| + τ * d) := by
        rw [abs_mul, abs_mul]
        gcongr
        exact (abs_nonneg _).trans hFactor
    _ = |g| * |T - A| + (δ + τ * d) := by ring

/-- Over a run the errors stay below what they sum up to, however long it is. -/
theorem march_accuracy (hh : 0 < h) (hr : 0 < r) (hg : |g| < 1) (hδ : 0 ≤ δ)
    (hFactor : |g - Real.exp (-((h : ℝ) * r))| ≤ τ)
    (hStep : ∀ T T', step T = some T' →
      |(T' : ℝ) - (TSurround + g * ((T : ℝ) - TSurround))| ≤ δ)
    (hRun : march step h tFinal fuel TInitial = some (temps, times)) :
    times = grid h tFinal ∧ temps.length = times.length ∧
      ∀ p ∈ temps.zip times, |(p.1 : ℝ) - analyticalSolution TInitial TSurround r p.2| ≤
        (δ + τ * |(TInitial : ℝ) - TSurround|) / (1 - |g|) := by
  obtain ⟨rfl, hLength⟩ := march_grid hh hRun
  obtain ⟨hHead, hChain⟩ := march_chain hRun
  refine ⟨rfl, hLength, fun p hp => ?_⟩
  obtain ⟨n, hn, rfl⟩ := List.mem_iff_getElem.mp hp
  obtain ⟨hn, hn'⟩ := lt_min_iff.mp (List.length_zip ▸ hn)
  have hTime : (grid h tFinal)[n] = n * h := by
    simp only [grid, multiples, List.getElem_map, List.getElem_range]
  have hhr : (0 : ℝ) < h ∧ (0 : ℝ) < r := ⟨Rat.cast_pos.mpr hh, Rat.cast_pos.mpr hr⟩
  have hStart : |((temps.getD 0 0 : ℚ) : ℝ) -
      analyticalSolution TInitial TSurround r ((0 : Nat) * h)| ≤ 0 := by
    cases temps with
    | nil => cases hn
    | cons T temps =>
        obtain rfl := Option.some.inj hHead
        rw [Nat.cast_zero, zero_mul, analyticalSolution_zero, List.getD_cons_zero, sub_self,
          abs_zero]
  have hSteps : ∀ k < n, |((temps.getD (k + 1) 0 : ℚ) : ℝ) -
      analyticalSolution TInitial TSurround r ((k + 1 : Nat) * h)| ≤
        |g| * |((temps.getD k 0 : ℚ) : ℝ) - analyticalSolution TInitial TSurround r (k * h)| +
          (δ + τ * |(TInitial : ℝ) - TSurround|) := by
    intro k hk
    have hNext := hChain.getElem k (by omega)
    have hDecay := analyticalSolution_add TInitial TSurround r (k * h) h
    have hTimeNext : ((k + 1 : Nat) : ℝ) * h = k * h + h := by
      push_cast
      ring
    rw [List.getD_eq_getElem _ _ (by omega : k < temps.length),
      List.getD_eq_getElem _ _ (by omega : k + 1 < temps.length), hTimeNext]
    exact step_accuracy hDecay (abs_analyticalSolution_sub_le _ _ hhr.2.le
      (mul_nonneg k.cast_nonneg hhr.1.le)) (hStep _ _ hNext) hFactor
  have hBound := accumulated_le (fun k => |((temps.getD k 0 : ℚ) : ℝ) -
    analyticalSolution TInitial TSurround r (k * h)|) (abs_nonneg g) hg hStart hSteps
  have hLimit : 0 ≤ (δ + τ * |(TInitial : ℝ) - TSurround|) / (1 - |g|) := by
    have hτ : 0 ≤ τ := (abs_nonneg _).trans hFactor
    have hGap : 0 < 1 - |g| := sub_pos.mpr hg
    positivity
  have hPow : 0 ≤ |g| ^ n := pow_nonneg (abs_nonneg g) n
  rw [List.getElem_zip, hTime, Rat.cast_mul, Rat.cast_natCast, ← List.getD_eq_getElem _ 0 hn]
  exact hBound.trans (mul_le_of_le_one_right hLimit (sub_le_self 1 hPow))

/-- The solver returns for every positive step, whatever the other parameters. -/
theorem forwardEulerAlgorithm_returns (hh : 0 < h) (TInitial TSurround r tFinal : ℚ) :
    ∃ fuel temps times,
      forwardEulerAlgorithm TInitial TSurround h r tFinal fuel = some (temps, times) :=
  march_ends (f := fun _ T => some (eulerStep TSurround h r T)) hh
    (fun _ _ _ _ _ hStep => hStep) (fun _ => ⟨0, _, rfl⟩) TInitial tFinal

/-- Inside the stability region the explicit solver returns a point for each step up to the
final time, and the points are of first order in the step size, however long the run is:
with `h * r` at most 1 the factor is half of `h * r`. -/
theorem forward_euler_accurate (TInitial TSurround tFinal : ℚ) (hh : 0 < h) (hr : 0 < r)
    (hhr : h * r < 2) :
    (∃ fuel temps times,
      forwardEulerAlgorithm TInitial TSurround h r tFinal fuel = some (temps, times)) ∧
    ∀ fuel temps times,
      forwardEulerAlgorithm TInitial TSurround h r tFinal fuel = some (temps, times) →
      times = grid h tFinal ∧ temps.length = times.length ∧
        ∀ p ∈ temps.zip times, |(p.1 : ℝ) - analyticalSolution TInitial TSurround r p.2| ≤
          ((h : ℝ) * r) ^ 2 / 2 / (1 - |1 - (h : ℝ) * r|) * |(TInitial : ℝ) - TSurround| := by
  refine ⟨forwardEulerAlgorithm_returns hh _ _ _ _, fun fuel temps times hRun => ?_⟩
  have hz : (0 : ℝ) < h * r := by exact_mod_cast mul_pos hh hr
  have hz' : (h : ℝ) * r < 2 := by exact_mod_cast hhr
  have hg : |1 - (h : ℝ) * r| < 1 := abs_lt.mpr ⟨by linarith, by linarith⟩
  have hStep : ∀ T T', some (eulerStep TSurround h r T) = some T' →
      |(T' : ℝ) - (TSurround + (1 - (h : ℝ) * r) * ((T : ℝ) - TSurround))| ≤ 0 := by
    intro T T' hSome
    obtain rfl := Option.some.inj hSome
    rw [abs_nonpos_iff, eulerStep]
    push_cast
    ring
  have hPoints := march_accuracy hh hr hg le_rfl (Decay.abs_one_sub_sub_exp_le hz.le) hStep hRun
  rwa [zero_add, mul_div_right_comm] at hPoints

/-- The run of the file with the smallest step size: 1201 points, none of them off by more
than 13/64 of a degree. -/
theorem forward_euler_accurate_sample : ∃ fuel temps times,
    forwardEulerAlgorithm 84 19 (1 / 4) (1 / 40) 5 fuel = some (temps, times) ∧
    temps.length = 1201 ∧ ∀ p ∈ temps.zip times,
      |(p.1 : ℝ) - analyticalSolution 84 19 (1 / 40) p.2| ≤ 13 / 64 := by
  obtain ⟨⟨fuel, temps, times, hRun⟩, hPoints⟩ :=
    forward_euler_accurate (h := 1 / 4) (r := 1 / 40) 84 19 5 (by norm_num) (by norm_num)
      (by norm_num)
  obtain ⟨rfl, hLength, hClose⟩ := hPoints fuel temps times hRun
  refine ⟨fuel, temps, _, hRun, ?_, fun p hp => ?_⟩
  · rw [hLength, grid, multiples, List.length_map, List.length_range]
    norm_num
  · have hPoint := hClose p hp
    push_cast at hPoint
    refine hPoint.trans ?_
    norm_num [abs_of_pos]

/-- What the errors of all trapezoidal steps sum up to. -/
theorem limit_eq {w d : ℝ} (hw : 0 < w) (hw' : w < 2) :
    (1 / 20 * (w / 2) / (1 + w / 2) + w ^ 3 / 12 * d) / (1 - |(2 - w) / (2 + w)|) =
      1 / 40 + w ^ 2 * (2 + w) / 24 * d := by
  have hSum : 2 + w ≠ 0 := by linarith
  have hGap : 1 - (2 - w) / (2 + w) = 2 * w / (2 + w) := by
    field_simp
    ring
  have hHalf : 1 + w / 2 = (2 + w) / 2 := by ring
  rw [abs_of_pos (div_pos (by linarith) (by linarith)), hGap, hHalf]
  field_simp
  ring

/-- The trapezoidal solver has points at the same times. They are of second order in the step
size, up to half of the tolerance of its inner loop. -/
theorem euler_trapezoidal_accurate (TInitial TSurround tFinal : ℚ) (hh : 0 < h) (hr : 0 < r)
    (hhr : h * r < 2) :
    (∃ fuel temps times,
      eulerTrapezoidalAlgorithm TInitial TSurround h r tFinal fuel = some (temps, times)) ∧
    ∀ fuel temps times,
      eulerTrapezoidalAlgorithm TInitial TSurround h r tFinal fuel = some (temps, times) →
      times = grid h tFinal ∧ temps.length = times.length ∧
        ∀ p ∈ temps.zip times, |(p.1 : ℝ) - analyticalSolution TInitial TSurround r p.2| ≤
          1 / 40 + ((h : ℝ) * r) ^ 2 * (2 + h * r) / 24 * |(TInitial : ℝ) - TSurround| := by
  refine ⟨eulerTrapezoidalAlgorithm_returns hh hr hhr _ _ _, fun fuel temps times hRun => ?_⟩
  have hz : (0 : ℝ) < h * r := by exact_mod_cast mul_pos hh hr
  have hz' : (h : ℝ) * r < 2 := by exact_mod_cast hhr
  have hg : |(2 - (h : ℝ) * r) / (2 + h * r)| < 1 := by
    rw [abs_of_pos (div_pos (by linarith) (by linarith)), div_lt_one (by linarith)]
    linarith
  have hStep : ∀ T T', (innerLoop TSurround h r fuel T).map Inner.Tk = some T' →
      |(T' : ℝ) - (TSurround + (2 - (h : ℝ) * r) / (2 + h * r) * ((T : ℝ) - TSurround))| ≤
        1 / 20 * ((h : ℝ) * r / 2) / (1 + h * r / 2) := by
    intro T T' hSome
    obtain ⟨s, hInner, rfl⟩ := Option.map_eq_some_iff.mp hSome
    have hClose := innerLoop_close (by linarith [mul_pos hh hr]) hInner
    have hCast : ((|s.Tk - exactStep TSurround h r T| : ℚ) : ℝ) ≤ _ := Rat.cast_le.mpr hClose
    rw [exactStep] at hCast
    push_cast at hCast
    exact hCast
  have hPoints := march_accuracy hh hr hg (by positivity)
    (Decay.abs_trapezoidal_sub_exp_le hz.le hz') hStep hRun
  rwa [limit_eq hz hz'] at hPoints

theorem euler_trapezoidal_accurate_sample : ∃ fuel temps times,
    eulerTrapezoidalAlgorithm 84 19 1 (1 / 40) 5 fuel = some (temps, times) ∧
    ∀ p ∈ temps.zip times, |(p.1 : ℝ) - analyticalSolution 84 19 (1 / 40) p.2| ≤ 3 / 100 := by
  obtain ⟨⟨fuel, temps, times, hRun⟩, hPoints⟩ :=
    euler_trapezoidal_accurate (h := 1) (r := 1 / 40) 84 19 5 (by norm_num) (by norm_num)
      (by norm_num)
  obtain ⟨-, -, hClose⟩ := hPoints fuel temps times hRun
  refine ⟨fuel, temps, times, hRun, fun p hp => ?_⟩
  have hPoint := hClose p hp
  push_cast at hPoint
  refine hPoint.trans ?_
  norm_num [abs_of_pos]

end Accuracy

end Cooling
