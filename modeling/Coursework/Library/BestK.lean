import Mathlib.Data.List.Sort

/-! The `k` least members of a list in order, and the step of an insertion sort that
keeps them as the list grows. -/

namespace List

variable {α : Type} [LinearOrder α] {k : Nat} {x y c : α} {xs ys : List α}

def best (k : Nat) (xs : List α) : List α := (xs.insertionSort (· ≤ ·)).take k

/-- There are `k` of them once there are as many members. Before that all members are among
them. -/
theorem length_best : (best k xs).length = min k xs.length := by
  rw [best, length_take, length_insertionSort]

theorem sortedLE_best : (best k xs).SortedLE :=
  ((pairwise_insertionSort _ xs).sublist (take_sublist k _)).sortedLE

/-- A sorted list is known by its members: with one more, it is the insertion of that one. -/
theorem SortedLE.eq_orderedInsert (hSorted : ys.SortedLE) (hPerm : ys.Perm (x :: xs))
    (h : xs.SortedLE) : ys = xs.orderedInsert (· ≤ ·) x :=
  (hPerm.trans (perm_orderedInsert _ x xs).symm).eq_of_sortedLE hSorted
    (h.pairwise.orderedInsert x xs).sortedLE

/-- Sorting a list that grows at its end is inserting what is new. The induction is on the list
before it. -/
theorem insertionSort_append_singleton :
    (xs ++ [x]).insertionSort (· ≤ ·) = (xs.insertionSort (· ≤ ·)).orderedInsert (· ≤ ·) x := by
  apply sortedLE_insertionSort.eq_orderedInsert _ sortedLE_insertionSort
  calc
    (xs ++ [x]).insertionSort (· ≤ ·)
    _ ~ xs ++ [x] := perm_insertionSort _ _
    _ ~ x :: xs := perm_append_singleton x xs
    _ ~ x :: xs.insertionSort (· ≤ ·) := (perm_insertionSort _ xs).symm.cons x

/-- What is beyond the `k` first has no part in the `k` first after an insertion. So nothing is
lost by keeping `k` members only. -/
theorem take_orderedInsert (k : Nat) (xs : List α) :
    (xs.orderedInsert (· ≤ ·) x).take k = ((xs.take k).orderedInsert (· ≤ ·) x).take k := by
  induction xs generalizing k with
  | nil => rw [take_nil]
  | cons y ys ih =>
      cases k with
      | zero => rfl
      | succ k =>
          rw [take_succ_cons, orderedInsert_cons, orderedInsert_cons]
          split
          · rw [take_succ_cons, take_succ_cons, ← take_succ_cons (a := y), take_take,
              Nat.min_eq_left (Nat.le_succ k)]
          · rw [take_succ_cons, take_succ_cons, ih k]

/-- Step lemma: the best of a longer list come from the best so far and from what is new. -/
theorem best_append_singleton :
    best k (xs ++ [x]) = ((best k xs).orderedInsert (· ≤ ·) x).take k := by
  rw [best, insertionSort_append_singleton, take_orderedInsert]
  rfl

theorem orderedInsert_append_singleton_of_le (h : x ≤ y) :
    (xs ++ [y]).orderedInsert (· ≤ ·) x = xs.orderedInsert (· ≤ ·) x ++ [y] := by
  induction xs with
  | nil => exact orderedInsert_cons_of_le _ _ h
  | cons z zs ih =>
      rw [cons_append, orderedInsert_cons, orderedInsert_cons]
      split
      · rfl
      · rw [ih]
        rfl

/-- In a sorted list, what is no less than the members goes behind them, and an insertion is an
addition at the end. -/
theorem orderedInsert_eq_append (hSorted : xs.SortedLE) (h : ∀ y ∈ xs, y ≤ x) :
    xs.orderedInsert (· ≤ ·) x = xs ++ [x] := by
  refine (SortedLE.eq_orderedInsert ?_ (perm_append_singleton x xs) hSorted).symm
  apply Pairwise.sortedLE
  rw [pairwise_append]
  refine ⟨hSorted.pairwise, pairwise_singleton _ x, fun y hy z hz => ?_⟩
  rw [mem_singleton.mp hz]
  exact h y hy

/-- A member of a sorted list is within a bound when there are enough members that are. Its
index is how many. -/
theorem SortedLE.getElem_le_iff {n : Nat} (hSorted : xs.SortedLE) (hn : n < xs.length) :
    xs[n] ≤ c ↔ n < xs.countP (· ≤ c) := by
  constructor
  · intro hBound
    have hAll : ∀ y ∈ xs.take (n + 1), decide (y ≤ c) = true := by
      intro y hy
      obtain ⟨i, hi, rfl⟩ := mem_iff_getElem.mp hy
      rw [getElem_take, decide_eq_true_iff]
      rw [length_take] at hi
      exact (hSorted.getElem_le_getElem_of_le (by omega)).trans hBound
    have hCount := (take_sublist (n + 1) xs).countP_le (p := (· ≤ c))
    rw [countP_eq_length.mpr hAll, length_take] at hCount
    omega
  · intro hCount
    by_contra hBound
    have hNone : (xs.drop n).countP (· ≤ c) = 0 := by
      rw [countP_eq_zero]
      intro y hy
      obtain ⟨i, hi, rfl⟩ := mem_iff_getElem.mp hy
      rw [getElem_drop, decide_eq_true_iff]
      exact fun hLe => hBound ((hSorted.getElem_le_getElem_of_le (by omega)).trans hLe)
    rw [← take_append_drop n xs, countP_append, hNone] at hCount
    have hLength := (xs.take n).countP_le_length (p := (· ≤ c))
    rw [length_take] at hLength
    omega

/-- In a sorted list the last member bounds the others. For the `k` best it is what a new
member is compared with. -/
theorem SortedLE.le_last (hSorted : (ys ++ [y]).SortedLE) (hx : x ∈ ys ++ [y]) : x ≤ y := by
  cases mem_append.mp hx with
  | inl hx => exact (pairwise_append.mp hSorted.pairwise).2.2 x hx y (mem_singleton_self y)
  | inr hx => exact (mem_singleton.mp hx).le

theorem SortedLE.left (hSorted : (xs ++ ys).SortedLE) : xs.SortedLE :=
  (hSorted.pairwise.sublist (sublist_append_left xs ys)).sortedLE

/-- While there are fewer than `k` members, a new one is inserted and nothing is dropped. -/
theorem best_append_of_short (hShort : xs.length < k) :
    best k (xs ++ [x]) = (best k xs).orderedInsert (· ≤ ·) x := by
  rw [best_append_singleton, take_of_length_le]
  rw [orderedInsert_length, length_best]
  omega

/-- Once there are `k` members, a new one takes the place of the last of the best, when it is
less. -/
theorem best_append_of_lt (hBest : best k xs = ys ++ [y]) (hFull : k ≤ xs.length) (hLess : x < y) :
    best k (xs ++ [x]) = ys.orderedInsert (· ≤ ·) x := by
  have hLength : (ys ++ [y]).length = k := by
    rw [← hBest, length_best, Nat.min_eq_left hFull]
  rw [length_append, length_singleton] at hLength
  rw [best_append_singleton, hBest, orderedInsert_append_singleton_of_le hLess.le]
  apply take_left'
  rw [orderedInsert_length, hLength]

/-- What is not below the greatest of `k` best does not become one of them. The list of them
stays as it is. -/
theorem best_append_of_le (hBest : best k xs = ys ++ [y]) (hFull : k ≤ xs.length) (hLe : y ≤ x) :
    best k (xs ++ [x]) = best k xs := by
  have hBelow : ∀ z ∈ best k xs, z ≤ x := by
    intro z hz
    rw [hBest] at hz
    exact (SortedLE.le_last (hBest ▸ sortedLE_best) hz).trans hLe
  rw [best_append_singleton, orderedInsert_eq_append sortedLE_best hBelow]
  apply take_left'
  rw [length_best, Nat.min_eq_left hFull]

/-- The first of the best is the least member, of all members and not only of those that were
kept. -/
theorem best_head (hk : 0 < k) (hxs : xs ≠ []) :
    ∃ m ys, best k xs = m :: ys ∧ m ∈ xs ∧ ∀ y ∈ xs, m ≤ y := by
  cases hSort : xs.insertionSort (· ≤ ·) with
  | nil =>
      have hLength := length_insertionSort (· ≤ ·) xs
      rw [hSort] at hLength
      exact absurd (length_eq_zero_iff.mp hLength.symm) hxs
  | cons m ys =>
      have hMem : ∀ z, z ∈ m :: ys ↔ z ∈ xs := fun z => hSort ▸ mem_insertionSort (· ≤ ·)
      have hSorted : (m :: ys).Pairwise (· ≤ ·) := hSort ▸ pairwise_insertionSort _ xs
      refine ⟨m, ys.take (k - 1), ?_, (hMem m).mp mem_cons_self, fun y hy => ?_⟩
      · rw [best, hSort, take_cons hk]
      · cases (hMem y).mpr hy with
        | head => exact le_rfl
        | tail _ hTail => exact rel_of_pairwise_cons hSorted hTail

/-- The last of the `k` best is within a bound when `k` members are. So a test on it counts
over all of the list. -/
theorem best_last_le_iff (hk : 0 < k) (hLast : (best k xs)[k - 1]? = some y) :
    y ≤ c ↔ k ≤ xs.countP (· ≤ c) := by
  rw [best, getElem?_take_of_lt (Nat.sub_lt hk Nat.one_pos)] at hLast
  obtain ⟨hLength, rfl⟩ := getElem?_eq_some_iff.mp hLast
  rw [sortedLE_insertionSort.getElem_le_iff hLength, (perm_insertionSort _ xs).countP_eq]
  omega

end List
