import Coursework.Library.Loops
import Mathlib.Algebra.Order.Group.Abs
import Mathlib.Algebra.Order.Field.Rat

/-! The two solvers for Newton's law of cooling, over exact rational arithmetic.
A loop gets fuel and yields nothing when the fuel runs out; a solver returns if it
yields a result with some amount of fuel. What is printed is left out. -/

namespace Cooling

open Loop

/-- An explicit Euler step from the temperature `T`. -/
def eulerStep (TSurround h r T : ℚ) : ℚ := T - (h * r) * (T - TSurround)

/-- The variables of the inner loop of the trapezoidal solver. -/
structure Inner where
  k : Nat
  tolerance : ℚ
  Tk : ℚ

def innerBody (TSurround h r Tn : ℚ) (s : Inner) : Inner :=
  let TkPlus1 := Tn + (h / 2) * (-r * (Tn - TSurround) + -r * (s.Tk - TSurround))
  { k := s.k + 1, tolerance := |TkPlus1 - s.Tk|, Tk := TkPlus1 }

def innerStart (TSurround h r Tn : ℚ) : Inner :=
  { k := 0, tolerance := 1, Tk := eulerStep TSurround h r Tn }

/-- `while tolerance > 0.05`. -/
def innerLoop (TSurround h r : ℚ) (fuel : Nat) (Tn : ℚ) : Option Inner :=
  whileDo (fun s => decide (1 / 20 < s.tolerance)) (fun s => some (innerBody TSurround h r Tn s))
    fuel (innerStart TSurround h r Tn)

/-- The variables of the outer loop, which both solvers share. -/
structure March where
  t : ℚ
  T : ℚ
  temps : List ℚ
  times : List ℚ

/-- The body of the outer loop, around a step in time that yields the next
temperature. -/
def marchBody (step : ℚ → Option ℚ) (h : ℚ) (s : March) : Option March :=
  (step s.T).map fun T =>
    { t := s.t + h, T := T, temps := s.temps ++ [T], times := s.times ++ [s.t + h] }

/-- `while t < (t_final * 60)`. -/
def march (step : ℚ → Option ℚ) (h tFinal : ℚ) (fuel : Nat) (TInitial : ℚ) :
    Option (List ℚ × List ℚ) :=
  (whileDo (fun s => decide (s.t < tFinal * 60)) (marchBody step h) fuel
    (March.mk 0 TInitial [TInitial] [0])).map fun s => (s.temps, s.times)

def forwardEulerAlgorithm (TInitial TSurround h r tFinal : ℚ) (fuel : Nat) :
    Option (List ℚ × List ℚ) :=
  march (fun T => some (eulerStep TSurround h r T)) h tFinal fuel TInitial

def eulerTrapezoidalAlgorithm (TInitial TSurround h r tFinal : ℚ) (fuel : Nat) :
    Option (List ℚ × List ℚ) :=
  march (fun Tn => (innerLoop TSurround h r fuel Tn).map Inner.Tk) h tFinal fuel TInitial

end Cooling
