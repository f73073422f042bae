import Mathlib.Algebra.Order.Archimedean.Basic
import Mathlib.Tactic.FieldSimp
import Mathlib.Tactic.GCongr
import Mathlib.Tactic.LinearCombination
import Mathlib.Tactic.Linarith
import Mathlib.Tactic.Positivity

/-! Iterating an affine map of the line: how far the iterates are from the fixed
point and from each other, and when they are close. -/

namespace AffineIteration

variable {K : Type} [Field K]

/-- The map with the fixed point `c` and the slope `q`. -/
def affine (c q x : K) : K := c + q * (x - c)

/-- The iterates in closed form: the distance from the fixed point is multiplied by the factor
in each step. -/
theorem iterate_affine (c q x : K) (k : Nat) : (affine c q)^[k] x = c + q ^ k * (x - c) := by
  induction k with
  | zero => simp
  | succ k ih =>
      rw [Function.iterate_succ_apply', ih, affine, pow_succ]
      ring

variable [LinearOrder K] [IsStrictOrderedRing K] {c q x : K}

/-- The distance between an iterate and the next one. -/
theorem abs_iterate_sub (c q x : K) (k : Nat) :
    |(affine c q)^[k + 1] x - (affine c q)^[k] x| = |q| ^ k * (|q - 1| * |x - c|) := by
  rw [iterate_affine, iterate_affine, ← abs_pow, ← abs_mul, ← abs_mul]
  congr 1
  ring

/-- Two iterates in a row come within `ε` of each other exactly when the map
contracts or the first two are that close. -/
theorem exists_close_iff [Archimedean K] {ε : K} (hε : 0 < ε) :
    (∃ k, |(affine c q)^[k + 1] x - (affine c q)^[k] x| ≤ ε) ↔ |q| < 1 ∨ |q - 1| * |x - c| ≤ ε := by
  simp only [abs_iterate_sub]
  have hGap : 0 ≤ |q - 1| * |x - c| := by positivity
  constructor
  · rintro ⟨k, hk⟩
    by_cases hq : |q| < 1
    · exact Or.inl hq
    · right
      have hPow : 1 ≤ |q| ^ k := one_le_pow₀ (not_lt.mp hq)
      calc |q - 1| * |x - c| ≤ |q| ^ k * (|q - 1| * |x - c|) := le_mul_of_one_le_left hGap hPow
        _ ≤ ε := hk
  · rintro (hq | hFirst)
    · have hDen : 0 < |q - 1| * |x - c| + 1 := by linarith
      obtain ⟨k, hk⟩ := exists_pow_lt_of_lt_one (div_pos hε hDen) hq
      refine ⟨k, ?_⟩
      rw [lt_div_iff₀ hDen] at hk
      have hPow : 0 ≤ |q| ^ k := by positivity
      linarith
    · exact ⟨0, by simpa using hFirst⟩

/-- The distance to the fixed point after a step, from the length of the step. -/
theorem abs_affine_sub (hq : q < 1) (x : K) :
    |affine c q x - c| = |affine c q x - x| * (|q| / (1 - q)) := by
  have hDen : 0 < 1 - q := by linarith
  rw [mul_div_assoc', eq_div_iff hDen.ne', ← abs_of_pos hDen, ← abs_mul, ← abs_mul, ← abs_neg]
  congr 1
  unfold affine
  ring

/-- Errors of a contraction do not accumulate: with a new error of at most `δ`
in every step they stay below what all steps together could sum up to. -/
theorem accumulated_le {g δ : K} (e : Nat → K) (hg : 0 ≤ g) (hg' : g < 1) {n : Nat}
    (hStart : e 0 ≤ 0) (hStep : ∀ k < n, e (k + 1) ≤ g * e k + δ) :
    e n ≤ δ / (1 - g) * (1 - g ^ n) := by
  have hDen : 1 - g ≠ 0 := by linarith
  induction n with
  | zero => simpa using hStart
  | succ n ih =>
      have hLast := hStep n (Nat.lt_succ_self n)
      have hPrev := ih fun k hk => hStep k (by omega)
      calc e (n + 1) ≤ g * e n + δ := hLast
        _ ≤ g * (δ / (1 - g) * (1 - g ^ n)) + δ := by gcongr
        _ = δ / (1 - g) * (1 - g ^ (n + 1)) := by
          field_simp
          ring

end AffineIteration
