import Coursework.Cooling.Accuracy
import Mathlib.Data.List.Chain
import Mathlib.Data.List.GetD
import Mathlib.Data.Rat.Floor

/-! Whole runs of the two solvers: they return, the trapezoidal one stays close to
the exact trapezoidal solution, and both approach the ambient temperature. -/

namespace Cooling

open Loop AffineIteration

variable {TInitial TSurround h r tFinal : ℚ} {fuel : Nat} {temps times : List ℚ}

section March

variable {step : ℚ → Option ℚ}

/-- The temperatures start with the initial one, and each comes from the one
before by a step. -/
theorem march_chain (hRun : march step h tFinal fuel TInitial = some (temps, times)) :
    temps.head? = some TInitial ∧ temps.IsChain fun x y => step x = some y := by
  obtain ⟨s, hLoop, hTemps⟩ := Option.map_eq_some_iff.mp hRun
  obtain ⟨rfl, rfl⟩ := Prod.mk.inj hTemps
  have hInv := whileDo_invariant (I := fun u => u.temps.head? = some TInitial ∧
    u.temps.IsChain (fun x y => step x = some y) ∧ u.temps.getLast? = some u.T) ?_ ?_ hLoop
  · exact ⟨hInv.1.1, hInv.1.2.1⟩
  · exact ⟨rfl, List.isChain_singleton _, rfl⟩
  · rintro u v ⟨hHead, hChain, hLast⟩ - hBody
    obtain ⟨T, hStep, rfl⟩ := Option.map_eq_some_iff.mp hBody
    refine ⟨?_, ?_, List.getLast?_concat⟩
    · rw [List.head?_append, hHead]
      rfl
    · refine hChain.append (List.isChain_singleton _) fun x hx y hy => ?_
      rw [hLast] at hx
      obtain rfl := Option.some.inj hx
      obtain rfl := Option.some.inj hy
      exact hStep

/-- With steps that end and a positive step size the time runs out. -/
theorem march_ends {f : Nat → ℚ → Option ℚ} (hh : 0 < h)
    (hMono : ∀ fuel fuel' T T', fuel ≤ fuel' → f fuel T = some T' → f fuel' T = some T')
    (hStep : ∀ T, ∃ fuel T', f fuel T = some T') (TInitial tFinal : ℚ) :
    ∃ fuel temps times, march (f fuel) h tFinal fuel TInitial = some (temps, times) := by
  have hLoop : ∃ fuel s, whileDo (fun s => decide (s.t < tFinal * 60)) (marchBody (f fuel) h) fuel
      (March.mk 0 TInitial [TInitial] [0]) = some s := by
    refine whileDo_ends (fun s => ⌈(tFinal * 60 - s.t) / h⌉₊) ?_ ?_ _
    · intro fuel fuel' u v hFuel hBody
      obtain ⟨T, hT, rfl⟩ := Option.map_eq_some_iff.mp hBody
      exact Option.map_eq_some_iff.mpr ⟨T, hMono _ _ _ _ hFuel hT, rfl⟩
    · intro u hGuard
      obtain ⟨fuel, T, hT⟩ := hStep u.T
      refine ⟨fuel, _, Option.map_eq_some_iff.mpr ⟨T, hT, rfl⟩, ?_⟩
      have hLeft : 0 < (tFinal * 60 - u.t) / h :=
        div_pos (sub_pos.mpr (of_decide_eq_true hGuard)) hh
      have hNext : (tFinal * 60 - (u.t + h)) / h = (tFinal * 60 - u.t) / h - 1 := by
        field_simp
        ring
      show ⌈(tFinal * 60 - (u.t + h)) / h⌉₊ < ⌈(tFinal * 60 - u.t) / h⌉₊
      rw [hNext, Nat.ceil_sub_one]
      exact Nat.sub_lt (Nat.ceil_pos.mpr hLeft) Nat.one_pos
  obtain ⟨fuel, s, hRun⟩ := hLoop
  exact ⟨fuel, s.temps, s.times, Option.map_eq_some_iff.mpr ⟨s, hRun, rfl⟩⟩

end March

section Accuracy

/-- The exact trapezoidal solution after `n` steps. -/
def exactRun (TInitial TSurround h r : ℚ) (n : Nat) : ℚ :=
  TSurround + ((2 - h * r) / (2 + h * r)) ^ n * (TInitial - TSurround)

/-- One more step of the exact scheme. -/
theorem exactRun_succ (TInitial TSurround h r : ℚ) (n : Nat) :
    exactRun TInitial TSurround h r (n + 1) =
      exactStep TSurround h r (exactRun TInitial TSurround h r n) := by
  unfold exactRun exactStep
  ring

/-- The exact step is affine, so it scales the distance of any two temperatures by one factor.
An error of one step is passed on by it. -/
theorem exactStep_sub (TSurround h r x y : ℚ) :
    exactStep TSurround h r x - exactStep TSurround h r y =
      (2 - h * r) / (2 + h * r) * (x - y) := by
  unfold exactStep
  ring

/-- What the errors of all steps sum up to. -/
theorem error_limit {w : ℚ} (hw : 0 < w) :
    1 / 20 * (w / 2) / (1 + w / 2) / (1 - (2 - w) / (2 + w)) = 1 / 40 := by
  have hDen : 2 + w ≠ 0 := by linarith
  have hGap : 1 - (2 - w) / (2 + w) = 2 * w / (2 + w) := by
    field_simp
    ring
  rw [hGap]
  field_simp
  ring

/-- Inside the stability region every step of the trapezoidal solver ends. -/
theorem eulerTrapezoidalAlgorithm_returns (hh : 0 < h) (hr : 0 < r) (hhr : h * r < 2)
    (TInitial TSurround tFinal : ℚ) : ∃ fuel temps times,
      eulerTrapezoidalAlgorithm TInitial TSurround h r tFinal fuel = some (temps, times) := by
  have hz : 0 < h * r := mul_pos hh hr
  refine march_ends hh ?_ (fun Tn => ?_) TInitial tFinal
  · intro fuel fuel' Tn T hFuel hStep
    obtain ⟨s, hInner, rfl⟩ := Option.map_eq_some_iff.mp hStep
    exact Option.map_eq_some_iff.mpr ⟨s, innerLoop_mono hFuel hInner, rfl⟩
  · have hEnds : ∃ fuel s, innerLoop TSurround h r fuel Tn = some s :=
      (innerLoop_ends_iff (by linarith)).mpr (Or.inl (by linarith))
    obtain ⟨fuel, s, hInner⟩ := hEnds
    exact ⟨fuel, s.Tk, Option.map_eq_some_iff.mpr ⟨s, hInner, rfl⟩⟩

/-- A step adds at most the distance that the inner loop may leave. -/
theorem trapezoidal_step_error (hz : 0 < h * r) (hhr : h * r < 2) {x y v : ℚ}
    (hStep : (innerLoop TSurround h r fuel x).map Inner.Tk = some y) :
    |y - exactStep TSurround h r v| ≤ (2 - h * r) / (2 + h * r) * |x - v| +
      1 / 20 * (h * r / 2) / (1 + h * r / 2) := by
  obtain ⟨s, hInner, rfl⟩ := Option.map_eq_some_iff.mp hStep
  have hClose := innerLoop_close (by linarith) hInner
  have hFactor : 0 ≤ (2 - h * r) / (2 + h * r) := div_nonneg (by linarith) (by linarith)
  calc |s.Tk - exactStep TSurround h r v|
      ≤ |s.Tk - exactStep TSurround h r x| +
        |exactStep TSurround h r x - exactStep TSurround h r v| := abs_sub_le _ _ _
    _ = |s.Tk - exactStep TSurround h r x| + (2 - h * r) / (2 + h * r) * |x - v| := by
        rw [exactStep_sub, abs_mul, abs_of_nonneg hFactor]
    _ ≤ _ := by linarith

/-- The error of the inner loop does not accumulate over a run. -/
theorem trapezoidal_error_bounded (TInitial TSurround tFinal : ℚ) (hh : 0 < h) (hr : 0 < r)
    (hhr : h * r < 2) :
    (∃ fuel temps times,
      eulerTrapezoidalAlgorithm TInitial TSurround h r tFinal fuel = some (temps, times)) ∧
    ∀ fuel temps times,
      eulerTrapezoidalAlgorithm TInitial TSurround h r tFinal fuel = some (temps, times) →
      ∀ (n : Nat) (hn : n < temps.length), |temps[n] -
        (TSurround + ((2 - h * r) / (2 + h * r)) ^ n * (TInitial - TSurround))| < 1 / 40 := by
  refine ⟨eulerTrapezoidalAlgorithm_returns hh hr hhr _ _ _, fun fuel temps times hRun n hn => ?_⟩
  have hz : 0 < h * r := mul_pos hh hr
  obtain ⟨hHead, hChain⟩ := march_chain hRun
  have hFactor : 0 < (2 - h * r) / (2 + h * r) := div_pos (by linarith) (by linarith)
  have hFactor' : (2 - h * r) / (2 + h * r) < 1 := by
    rw [div_lt_one (by linarith)]
    linarith
  have hStart : |temps.getD 0 0 - exactRun TInitial TSurround h r 0| ≤ 0 := by
    cases temps with
    | nil => cases hn
    | cons T temps =>
        obtain rfl := Option.some.inj hHead
        simp [exactRun]
  have hSteps : ∀ k < n, |temps.getD (k + 1) 0 - exactRun TInitial TSurround h r (k + 1)| ≤
      (2 - h * r) / (2 + h * r) * |temps.getD k 0 - exactRun TInitial TSurround h r k| +
        1 / 20 * (h * r / 2) / (1 + h * r / 2) := by
    intro k hk
    have hStep := hChain.getElem k (by omega)
    rw [List.getD_eq_getElem _ _ (by omega : k < temps.length),
      List.getD_eq_getElem _ _ (by omega : k + 1 < temps.length), exactRun_succ]
    exact trapezoidal_step_error hz hhr hStep
  have hBound := accumulated_le (fun k => |temps.getD k 0 - exactRun TInitial TSurround h r k|)
    hFactor.le hFactor' hStart hSteps
  have hPow : 0 < ((2 - h * r) / (2 + h * r)) ^ n := pow_pos hFactor n
  rw [error_limit hz, List.getD_eq_getElem _ _ hn] at hBound
  unfold exactRun at hBound
  linarith

theorem trapezoidal_error_bounded_sample : ∃ fuel temps times,
    eulerTrapezoidalAlgorithm 84 19 30 (1 / 40) 5 fuel = some (temps, times) ∧
    ∀ (n : Nat) (hn : n < temps.length), |temps[n] -
      (19 + ((2 - 30 * (1 / 40)) / (2 + 30 * (1 / 40))) ^ n * (84 - 19))| < 1 / 40 := by
  obtain ⟨⟨fuel, temps, times, hRun⟩, hBound⟩ :=
    trapezoidal_error_bounded (h := 30) (r := 1 / 40) 84 19 5 (by norm_num) (by norm_num)
      (by norm_num)
  exact ⟨fuel, temps, times, hRun, hBound fuel temps times hRun⟩

end Accuracy

section Approach

/-- `y` is nearer to the ambient temperature than `x`, unless `x` is already there. -/
def Approaches (TSurround x y : ℚ) : Prop :=
  |y - TSurround| ≤ |x - TSurround| ∧ (x ≠ TSurround → |y - TSurround| < |x - TSurround|)

/-- A step that scales the distance to the surroundings by less than one comes closer to
them. -/
theorem Approaches.of_factor {x y a : ℚ} (ha : |a| < 1)
    (h : y - TSurround = a * (x - TSurround)) : Approaches TSurround x y := by
  have hNonneg := abs_nonneg (x - TSurround)
  rw [Approaches, h, abs_mul]
  constructor
  · exact mul_le_of_le_one_left hNonneg ha.le
  · intro hNe
    exact mul_lt_of_lt_one_left (abs_pos.mpr (sub_ne_zero.mpr hNe)) ha

/-- The explicit step scales the distance by `1 - h * r`, which lies between the two bounds. -/
theorem eulerStep_approaches (hz : 0 < h * r) (hhr : h * r < 2) (T : ℚ) :
    Approaches TSurround T (eulerStep TSurround h r T) := by
  refine .of_factor (a := 1 - h * r) (abs_lt.mpr ⟨by linarith, by linarith⟩) ?_
  unfold eulerStep
  ring

/-- However many rounds the inner loop makes, the step approaches the ambient
temperature: the rounds add at most twice `z` to the factor `1 - z`. -/
theorem guess_approaches (hz : 0 < h * r) (hhr : h * r < 2) (Tn : ℚ) (k : Nat) :
    Approaches TSurround Tn (guess TSurround h r Tn (k + 1)) := by
  obtain ⟨z, hzEq⟩ : ∃ z, z = h * r / 2 := ⟨_, rfl⟩
  have hzPos : 0 < z := by linarith
  have hzLt : z < 1 := by linarith
  have hDen : 0 < 1 + z := by linarith
  have hTail : |2 * z ^ 2 * (-z) ^ (k + 1)| < 2 * z := by
    have hPow : z ^ (k + 2) < 1 := pow_lt_one₀ hzPos.le hzLt (by omega)
    rw [abs_mul, abs_pow, abs_neg, abs_of_pos hzPos, abs_of_pos (by positivity)]
    calc 2 * z ^ 2 * z ^ (k + 1) = 2 * z * z ^ (k + 2) := by ring
      _ < 2 * z * 1 := by gcongr
      _ = 2 * z := mul_one _
  refine .of_factor (a := ((1 - z) - 2 * z ^ 2 * (-z) ^ (k + 1)) / (1 + z)) ?_ ?_
  · rw [abs_div, abs_of_pos hDen, div_lt_one hDen]
    calc |1 - z - 2 * z ^ 2 * (-z) ^ (k + 1)|
        ≤ |1 - z| + |2 * z ^ 2 * (-z) ^ (k + 1)| := abs_sub _ _
      _ < (1 - z) + 2 * z := by
        rw [abs_of_pos (by linarith : 0 < 1 - z)]
        linarith
      _ = 1 + z := by ring
  · rw [guess, iterate_affine, eulerStep_sub_exactStep (by linarith), exactStep_eq (by linarith),
      ← hzEq]
    field_simp
    ring

/-- With every step both solvers come nearer to the ambient temperature. -/
theorem solvers_approach (TInitial TSurround tFinal : ℚ) (hh : 0 < h) (hr : 0 < r)
    (hhr : h * r < 2) :
    ((∃ fuel temps times,
        forwardEulerAlgorithm TInitial TSurround h r tFinal fuel = some (temps, times)) ∧
      ∃ fuel temps times,
        eulerTrapezoidalAlgorithm TInitial TSurround h r tFinal fuel = some (temps, times)) ∧
    ∀ fuel temps times,
      forwardEulerAlgorithm TInitial TSurround h r tFinal fuel = some (temps, times) ∨
        eulerTrapezoidalAlgorithm TInitial TSurround h r tFinal fuel = some (temps, times) →
      ∀ (n : Nat) (hn : n + 1 < temps.length),
        |temps[n + 1] - TSurround| ≤ |temps[n] - TSurround| ∧
        (temps[n] ≠ TSurround → |temps[n + 1] - TSurround| < |temps[n] - TSurround|) := by
  have hz : 0 < h * r := mul_pos hh hr
  refine ⟨⟨?_, eulerTrapezoidalAlgorithm_returns hh hr hhr _ _ _⟩, ?_⟩
  · exact march_ends (f := fun _ T => some (eulerStep TSurround h r T)) hh
      (fun _ _ _ _ _ hStep => hStep) (fun T => ⟨0, _, rfl⟩) TInitial tFinal
  · rintro fuel temps times (hRun | hRun) n hn
    · have hStep := (march_chain hRun).2.getElem n hn
      rw [← Option.some.inj hStep]
      exact eulerStep_approaches hz hhr _
    · have hStep := (march_chain hRun).2.getElem n hn
      obtain ⟨s, hInner, hTk⟩ := Option.map_eq_some_iff.mp hStep
      obtain ⟨k, hGuess, -⟩ := innerLoop_some (by linarith) hInner
      rw [← hTk, hGuess]
      exact guess_approaches hz hhr _ k

theorem solvers_approach_sample : ∃ fuel temps times,
    eulerTrapezoidalAlgorithm 84 19 30 (1 / 40) 5 fuel = some (temps, times) ∧
    ∀ (n : Nat) (hn : n + 1 < temps.length), |temps[n + 1] - 19| ≤ |temps[n] - 19| := by
  obtain ⟨⟨-, fuel, temps, times, hRun⟩, hStep⟩ :=
    solvers_approach (h := 30) (r := 1 / 40) 84 19 5 (by norm_num) (by norm_num) (by norm_num)
  exact ⟨fuel, temps, times, hRun, fun n hn => (hStep fuel temps times (Or.inr hRun) n hn).1⟩

end Approach

end Cooling
