import Mathlib.Analysis.SpecialFunctions.Pow.Real
import Mathlib.Data.Int.Log
import Mathlib.Data.Rat.Floor

/-! Products of positive numbers that are kept as a fraction and a power of two,
and what becomes of their roots when only the power of two is divided. -/

namespace Scaled

section Split

variable {R : Type} [Field R] [LinearOrder R] [FloorSemiring R] {x : R}

/-- The fraction, at least a half and less than one, and the power of two of a
number that is not negative; both are zero for zero. -/
def frexp (x : R) : R × Int :=
  if x = 0 then (0, 0) else (x / 2 ^ (Int.log 2 x + 1), Int.log 2 x + 1)

variable [IsStrictOrderedRing R]

theorem frexp_value (hx : 0 < x) : (frexp x).1 * 2 ^ (frexp x).2 = x := by
  have hPower : (0 : R) < 2 ^ (Int.log 2 x + 1) := zpow_pos two_pos _
  rw [frexp, if_neg (ne_of_gt hx)]
  exact div_mul_cancel₀ x (ne_of_gt hPower)

/-- The fraction of a positive number is at least a half and less than one. -/
theorem frexp_bounds (hx : 0 < x) : 1 / 2 ≤ (frexp x).1 ∧ (frexp x).1 < 1 := by
  have hLow := Int.zpow_log_le_self (b := 2) (by decide) hx
  have hHigh := Int.lt_zpow_succ_log_self (b := 2) (by decide) x
  have hPower : (0 : R) < 2 ^ (Int.log 2 x + 1) := zpow_pos two_pos _
  rw [Nat.cast_ofNat] at hLow hHigh
  rw [frexp, if_neg (ne_of_gt hx)]
  constructor
  · rw [le_div_iff₀ hPower, zpow_add_one₀ two_ne_zero]
    calc (1 / 2 : R) * (2 ^ Int.log 2 x * 2) = 2 ^ Int.log 2 x := by ring
      _ ≤ x := hLow
  · rwa [div_lt_one hPower]

end Split

end Scaled

/-- A number as a fraction and a power of two. -/
structure Scaled (R : Type) where
  frac : R
  exp : Int
deriving DecidableEq, Repr

namespace Scaled

variable {R : Type} [Field R] {a : Scaled R} {x : R}

def one : Scaled R := ⟨1, 0⟩

def value (a : Scaled R) : R := a.frac * 2 ^ a.exp

theorem value_one : (one : Scaled R).value = 1 := by
  rw [value, one, zpow_zero, one_mul]

variable [LinearOrder R] [FloorSemiring R]

/-- Multiply by `x`, and bring the fraction back to its bounds. -/
def absorb (a : Scaled R) (x : R) : Scaled R where
  frac := (frexp (a.frac * (frexp x).1)).1
  exp := a.exp + (frexp x).2 + (frexp (a.frac * (frexp x).1)).2

variable [IsStrictOrderedRing R]

theorem frexp_pos (hx : 0 < x) : 0 < (frexp x).1 :=
  lt_of_lt_of_le one_half_pos (frexp_bounds hx).1

/-- After a factor the fraction is between a half and one again. -/
theorem absorb_bounds (ha : 0 < a.frac) (hx : 0 < x) :
    1 / 2 ≤ (a.absorb x).frac ∧ (a.absorb x).frac < 1 :=
  frexp_bounds (mul_pos ha (frexp_pos hx))

/-- The value is multiplied by the factor, whatever went from the fraction to the power of
two. -/
theorem value_absorb (ha : 0 < a.frac) (hx : 0 < x) : (a.absorb x).value = a.value * x := by
  have hSplit := frexp_value hx
  have hNormal := frexp_value (mul_pos ha (frexp_pos hx))
  have hTwo : (2 : R) ≠ 0 := two_ne_zero
  calc (a.absorb x).value
      = ((frexp (a.frac * (frexp x).1)).1 * 2 ^ (frexp (a.frac * (frexp x).1)).2) *
          (2 ^ a.exp * 2 ^ (frexp x).2) := by
        rw [value, absorb, zpow_add₀ hTwo, zpow_add₀ hTwo]
        ring
    _ = a.value * ((frexp x).1 * 2 ^ (frexp x).2) := by
        rw [hNormal, value]
        ring
    _ = a.value * x := by rw [hSplit]

/-- Numbers that are multiplied one by one. Fraction and exponent together are their product,
however often the fraction was brought back. -/
theorem foldl_absorb {xs : List R} (hxs : ∀ x ∈ xs, 0 < x) (ha : 0 < a.frac) :
    0 < (xs.foldl absorb a).frac ∧ (xs.foldl absorb a).value = a.value * xs.prod := by
  induction xs generalizing a with
  | nil => exact ⟨ha, (mul_one _).symm⟩
  | cons x xs ih =>
      obtain ⟨hx, hxs⟩ := List.forall_mem_cons.mp hxs
      have hPos := lt_of_lt_of_le one_half_pos (absorb_bounds ha hx).1
      obtain ⟨hFrac, hValue⟩ := ih hxs hPos
      refine ⟨hFrac, ?_⟩
      rw [List.foldl_cons, hValue, value_absorb ha hx, List.prod_cons, mul_assoc]

/-- The fraction is within its bounds after the first number, and stays there. -/
theorem foldl_absorb_bounds {xs : List R} (hxs : ∀ x ∈ xs, 0 < x) (hNonempty : xs ≠ []) :
    1 / 2 ≤ (xs.foldl absorb one).frac ∧ (xs.foldl absorb one).frac < 1 := by
  induction xs using List.reverseRecOn with
  | nil => exact absurd rfl hNonempty
  | append_singleton xs x _ =>
      obtain ⟨hInit, hLast⟩ := List.forall_mem_append.mp hxs
      rw [List.foldl_append, List.foldl_cons, List.foldl_nil]
      exact absorb_bounds (foldl_absorb (a := one) hInit one_pos).1
        (hLast x List.mem_cons_self)

end Scaled

section Root

variable {a : Scaled ℚ} {n : Nat}

/-- The power of two is divided by `n`, the fraction is not. -/
noncomputable def Scaled.halfRoot (a : Scaled ℚ) (n : Nat) : ℝ :=
  (a.frac : ℝ) * 2 ^ ((a.exp : ℝ) / n)

/-- This is less than the root, but more than half of it. The fraction is what is missing, and
it is at least a half. -/
theorem Scaled.halfRoot_bounds (hLow : 1 / 2 ≤ a.frac) (hHigh : a.frac < 1) (hn : 0 < n) :
    ((a.value : ℚ) : ℝ) ^ (1 / (n : ℝ)) / 2 < a.halfRoot n ∧
      a.halfRoot n ≤ ((a.value : ℚ) : ℝ) ^ (1 / (n : ℝ)) := by
  have hLow : (1 / 2 : ℝ) ≤ a.frac := by simpa using (Rat.cast_le (K := ℝ)).mpr hLow
  have hHigh : (a.frac : ℝ) < 1 := by exact_mod_cast hHigh
  have hFrac : (0 : ℝ) < a.frac := lt_of_lt_of_le one_half_pos hLow
  have hRoot : (1 / (n : ℝ)) ≤ 1 := by
    rw [div_le_one (by exact_mod_cast hn)]
    exact_mod_cast hn
  have hRootPos : 0 < 1 / (n : ℝ) := one_div_pos.mpr (by exact_mod_cast hn)
  have hPower : (0 : ℝ) < 2 ^ ((a.exp : ℝ) / n) := Real.rpow_pos_of_pos two_pos _
  have hValue : ((a.value : ℚ) : ℝ) ^ (1 / (n : ℝ)) =
      (a.frac : ℝ) ^ (1 / (n : ℝ)) * 2 ^ ((a.exp : ℝ) / n) := by
    rw [Scaled.value, Rat.cast_mul, Rat.cast_zpow, Rat.cast_ofNat,
      Real.mul_rpow hFrac.le (zpow_nonneg two_pos.le _), ← Real.rpow_intCast,
      ← Real.rpow_mul two_pos.le, mul_one_div]
  have hAbove : (a.frac : ℝ) ≤ (a.frac : ℝ) ^ (1 / (n : ℝ)) := by
    have hMono := Real.rpow_le_rpow_of_exponent_ge hFrac hHigh.le hRoot
    rwa [Real.rpow_one] at hMono
  have hBelow : (a.frac : ℝ) ^ (1 / (n : ℝ)) < 1 := Real.rpow_lt_one hFrac.le hHigh hRootPos
  rw [hValue, Scaled.halfRoot]
  constructor
  · calc (a.frac : ℝ) ^ (1 / (n : ℝ)) * 2 ^ ((a.exp : ℝ) / n) / 2
        < 1 * 2 ^ ((a.exp : ℝ) / n) / 2 := by gcongr
      _ = 1 / 2 * 2 ^ ((a.exp : ℝ) / n) := by ring
      _ ≤ (a.frac : ℝ) * 2 ^ ((a.exp : ℝ) / n) := by gcongr
  · gcongr

end Root
