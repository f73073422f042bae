import Mathlib.Algebra.Order.Field.Rat
import Mathlib.Data.Rat.Cast.Order
import Mathlib.Order.Lattice
import Mathlib.Tactic.Positivity

/-! Arithmetic in which every result is rounded. Nothing is known of the rounding but that
it keeps the order and leaves the integers alone that have few enough digits, so what is
proved here holds of every format and every direction of rounding. -/

/-- A way of rounding that is the identity on the integers up to a limit. -/
structure Rounding (limit : Nat) where
  round : ℚ → ℚ
  mono : Monotone round
  exact : ∀ n : Int, |n| ≤ limit → round n = n

namespace Rounding

/-- No rounding at all. -/
def none (limit : Nat) : Rounding limit := ⟨id, monotone_id, fun _ _ => rfl⟩

end Rounding

/-- The numbers of an arithmetic that rounds. -/
@[ext] structure Rounded {limit : Nat} (ρ : Rounding limit) where
  val : ℚ
deriving DecidableEq, Repr

namespace Rounded

variable {limit : Nat} {ρ : Rounding limit}

instance : LinearOrder (Rounded ρ) := LinearOrder.lift' val fun _ _ => Rounded.ext

instance : Zero (Rounded ρ) := ⟨⟨0⟩⟩
instance : One (Rounded ρ) := ⟨⟨1⟩⟩
instance : Add (Rounded ρ) := ⟨fun x y => ⟨ρ.round (x.val + y.val)⟩⟩
instance : Sub (Rounded ρ) := ⟨fun x y => ⟨ρ.round (x.val - y.val)⟩⟩
instance : Mul (Rounded ρ) := ⟨fun x y => ⟨ρ.round (x.val * y.val)⟩⟩
instance : Div (Rounded ρ) := ⟨fun x y => ⟨ρ.round (x.val / y.val)⟩⟩
instance : NatCast (Rounded ρ) := ⟨fun n => ⟨ρ.round n⟩⟩
instance : IntCast (Rounded ρ) := ⟨fun n => ⟨ρ.round n⟩⟩

theorem lt_def {x y : Rounded ρ} : x < y ↔ x.val < y.val := Iff.rfl

/-- A whole number within the limit is the number itself. This is what is asked of a rounding,
beside its order. -/
theorem val_natCast {n : Nat} (hn : n ≤ limit) : (n : Rounded ρ).val = n := by
  have hExact := ρ.exact n (by rwa [Nat.abs_cast, Nat.cast_le])
  rwa [Int.cast_natCast] at hExact

end Rounded
