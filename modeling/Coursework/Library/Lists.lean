import Mathlib.Data.List.Nodup
import Mathlib.Data.List.Perm.Subperm
import Mathlib.Tactic.Common

/-! Lists in which a member is determined by a test or by its image, and how long a
list of different numbers can be. -/

namespace List

variable {α β : Type}

/-- The only member that passes a test is found. -/
theorem find?_eq_some_of_unique {xs : List α} {x : α} {p : α → Bool} (hx : x ∈ xs)
    (hPass : p x = true) (hOnly : ∀ y ∈ xs, p y = true → y = x) : xs.find? p = some x := by
  cases hFind : xs.find? p with
  | none => exact absurd hPass (List.find?_eq_none.mp hFind x hx)
  | some y => rw [hOnly y (List.mem_of_find?_eq_some hFind) (List.find?_some hFind)]

/-- Dropping the first member that passes a test is dropping the only one. -/
theorem eraseP_eq_erase_of_unique [BEq α] [LawfulBEq α] {xs : List α} {x : α} {p : α → Bool}
    (hOnly : ∀ y ∈ xs, p y = true ↔ y = x) : xs.eraseP p = xs.erase x := by
  induction xs with
  | nil => rfl
  | cons y xs ih =>
      by_cases hyx : y = x
      · subst hyx
        rw [List.erase_cons_head, List.eraseP_cons_of_pos ((hOnly y (by simp)).mpr rfl)]
      · have hFails : ¬p y = true := fun hPass => hyx ((hOnly y (by simp)).mp hPass)
        rw [List.erase_cons_tail (by simpa using hyx), List.eraseP_cons_of_neg hFails,
          ih fun z hz => hOnly z (by simp [hz])]

/-- A list without repetitions that has one kind of member has one member. -/
theorem eq_singleton_of_nodup {xs : List α} {x : α} (h : xs.Nodup) (hx : x ∈ xs)
    (hOnly : ∀ y ∈ xs, y = x) : xs = [x] := by
  refine List.perm_singleton.mp ((List.perm_ext_iff_of_nodup h (List.nodup_singleton x)).mpr ?_)
  intro y
  rw [List.mem_singleton]
  exact ⟨hOnly y, fun hEq => hEq ▸ hx⟩

/-- An insertion splits the list at its place. -/
theorem insertIdx_eq_take_append {xs : List α} {n : Nat} (h : n ≤ xs.length) (x : α) :
    xs.insertIdx n x = xs.take n ++ x :: xs.drop n := by
  induction xs generalizing n with
  | nil =>
      obtain rfl := Nat.le_zero.mp h
      rfl
  | cons y xs ih =>
      cases n with
      | zero => rfl
      | succ n => exact congrArg (y :: ·) (ih (Nat.le_of_succ_le_succ h))

/-- There are at most `n` different numbers below `n`. -/
theorem Nodup.length_le_of_lt {xs : List Nat} {n : Nat} (h : xs.Nodup) (hBound : ∀ x ∈ xs, x < n) :
    xs.length ≤ n := by
  have hSub : xs ⊆ List.range n := fun x hx => List.mem_range.mpr (hBound x hx)
  have hLength := (List.subperm_of_subset h hSub).length_le
  rwa [List.length_range] at hLength

/-- Taking a member from a list takes its image from the list of images, when
no other member has that image. -/
theorem map_erase_of_unique [BEq α] [LawfulBEq α] [BEq β] [LawfulBEq β] {f : α → β} {xs : List α}
    {x : α} (hOnly : ∀ y ∈ xs, f y = f x → y = x) :
    (xs.erase x).map f = (xs.map f).erase (f x) := by
  induction xs with
  | nil => rfl
  | cons y xs ih =>
      by_cases hyx : y = x
      · subst hyx
        rw [List.erase_cons_head, List.map_cons, List.erase_cons_head]
      · have hImage : f y ≠ f x := fun hEq => hyx (hOnly y (by simp) hEq)
        rw [List.erase_cons_tail (by simpa using hyx), List.map_cons, List.map_cons,
          List.erase_cons_tail (by simpa using hImage), ih fun z hz => hOnly z (by simp [hz])]

end List
