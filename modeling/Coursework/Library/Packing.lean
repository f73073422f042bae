import Coursework.Library.Bytes
import Mathlib.Algebra.BigOperators.Group.Finset.Basic
import Mathlib.Algebra.Order.Ring.Nat
import Mathlib.Order.Interval.Finset.Nat

/-! Ranges of addresses without common addresses: how much they take up, and how
much of it lies in others. -/

namespace Packing

open Bytes

variable {α β : Type} [DecidableEq α] [DecidableEq β] {xs : List α} {ys : List β}
  {start len : α → Nat} {start' len' : β → Nat}

/-- The addresses in the ranges of the members of a list. -/
def cover (xs : List α) (start len : α → Nat) : Finset Nat :=
  xs.toFinset.biUnion fun x => Finset.Ico (start x) (start x + len x)

/-- An address is covered when it is in the range of some member. The members need not be apart
for that. -/
theorem mem_cover {p : Nat} :
    p ∈ cover xs start len ↔ ∃ x ∈ xs, start x ≤ p ∧ p < start x + len x := by
  simp [cover]

theorem disjoint_of_apart {p n q m : Nat} (h : Apart p n q m) :
    Disjoint (Finset.Ico p (p + n)) (Finset.Ico q (q + m)) := by
  rw [Finset.disjoint_left]
  intro x hx hx'
  rw [Finset.mem_Ico] at hx hx'
  unfold Apart at h
  omega

/-- Ranges that are apart take up the sum of their lengths. The induction is on the list of
them. -/
theorem card_cover (hNodup : xs.Nodup)
    (hApart : ∀ x ∈ xs, ∀ y ∈ xs, x ≠ y → Apart (start x) (len x) (start y) (len y)) :
    (cover xs start len).card = (xs.map len).sum := by
  have hDisjoint : (xs.toFinset : Set α).PairwiseDisjoint
      fun x => Finset.Ico (start x) (start x + len x) := by
    intro x hx y hy hNe
    exact disjoint_of_apart
      (hApart x (List.mem_toFinset.mp hx) y (List.mem_toFinset.mp hy) hNe)
  rw [cover, Finset.card_biUnion hDisjoint, List.sum_toFinset _ hNodup]
  simp

/-- Ranges inside others. -/
theorem cover_subset (hInside : ∀ x ∈ xs, ∃ y ∈ ys, start' y ≤ start x ∧
    start x + len x ≤ start' y + len' y) : cover xs start len ⊆ cover ys start' len' := by
  intro p hp
  obtain ⟨x, hx, hLow, hHigh⟩ := mem_cover.mp hp
  obtain ⟨y, hy, hStart, hStop⟩ := hInside x hx
  exact mem_cover.mpr ⟨y, hy, by omega, by omega⟩

/-- Ranges that are apart and lie between two addresses are no longer together than what lies
between. -/
theorem sum_le_of_inside {lo hi : Nat} (hNodup : xs.Nodup)
    (hApart : ∀ x ∈ xs, ∀ y ∈ xs, x ≠ y → Apart (start x) (len x) (start y) (len y))
    (hInside : ∀ x ∈ xs, lo ≤ start x ∧ start x + len x ≤ hi) : (xs.map len).sum ≤ hi - lo := by
  have hSubset : cover xs start len ⊆ Finset.Ico lo hi := by
    intro p hp
    obtain ⟨x, hx, hLow, hHigh⟩ := mem_cover.mp hp
    have hx := hInside x hx
    exact Finset.mem_Ico.mpr ⟨by omega, by omega⟩
  have hCard := Finset.card_le_card hSubset
  rwa [card_cover hNodup hApart, Nat.card_Ico] at hCard

end Packing
