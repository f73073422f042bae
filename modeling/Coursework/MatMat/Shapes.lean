import Coursework.MatMat.Products

/-! What the five routines do with arrays whose shapes do not conform: `A` has `q`
columns and `B` has `p` rows. No routine compares the two. -/

namespace MatMat

open Loop Matrix

/-- The routine ends with an exception of NumPy and returns no array. -/
def Raises {α : Type} (x : Except NumpyError α) : Prop := ∃ e, x = .error e

theorem raises_of_eq {α : Type} {x : Except NumpyError α} {e : NumpyError} (h : x = .error e) :
    Raises x := ⟨e, h⟩

theorem not_raises_of_eq {α : Type} {x : Except NumpyError α} {a : α} (h : x = .ok a) :
    ¬Raises x := by
  rintro ⟨e, he⟩
  rw [h] at he
  cases he

section Parts

variable {R : Type} {m n p q r i j k : Nat}

/-- The first `r` columns of an array. -/
def firstCols (h : r ≤ q) (A : Matrix (Fin m) (Fin q) R) : Matrix (Fin m) (Fin r) R :=
  A.submatrix id (Fin.castLE h)

/-- The first `r` rows of an array. -/
def firstRows (h : r ≤ p) (B : Matrix (Fin p) (Fin n) R) : Matrix (Fin r) (Fin n) R :=
  B.submatrix (Fin.castLE h) id

/-- An entry that the loops over the shorter dimension read is the same in the part of `A` that
they read. -/
theorem item_firstCols (h : r ≤ q) (A : Matrix (Fin m) (Fin q) R) (hk : k < r) :
    item (firstCols h A) i k = item A i k := by
  by_cases hi : i < m
  · rw [item_ok hi hk, item_ok hi (by omega)]
    rfl
  · rw [item_error (by omega), item_error (by omega)]

theorem col_firstCols (h : r ≤ q) (A : Matrix (Fin m) (Fin q) R) (hk : k < r) :
    col (firstCols h A) k = col A k := by
  rw [col_ok hk, col_ok (by omega)]
  rfl

/-- The same of `B`, whose further rows no loop reaches. -/
theorem item_firstRows (h : r ≤ p) (B : Matrix (Fin p) (Fin n) R) (hk : k < r) :
    item (firstRows h B) k j = item B k j := by
  by_cases hj : j < n
  · rw [item_ok hk hj, item_ok (by omega) hj]
    rfl
  · rw [item_error (by omega), item_error (by omega)]

end Parts

section Routines

variable {R : Type} [CommRing R] {m n p q r : Nat} {A : Matrix (Fin m) (Fin q) R}
  {B : Matrix (Fin p) (Fin n) R}

/-! With columns to spare in `A`, three of the routines go on to the end. -/

/-- A surplus of columns in `A` is not noticed. The result is the product of the columns that
the loops read. -/
theorem matMatDirect_firstCols (h : p ≤ q) : matMatDirect A B = .ok (firstCols h A * B) := by
  rw [← matMatDirect_ok (firstCols h A) B]
  refine forRange_congr (fun j _ => forRange_congr fun i _ => forRange_congr fun k hk C => ?_) 0
  simp only [item_firstCols h A hk]

/-- The same of the outer product, whose loop takes the rows of `B` for its bound. -/
theorem matMatOuter_firstCols (h : p ≤ q) : matMatOuter A B = .ok (firstCols h A * B) := by
  rw [← matMatOuter_ok (firstCols h A) B]
  refine forRange_congr (fun k hk C => ?_) 0
  simp only [col_firstCols h A hk]

/-- The loop of `matMatSaxpy` over the columns of `A` reads no row of `B` from the `m`-th on. -/
theorem matMatSaxpy_firstCols (hq : r ≤ q) (hp : r ≤ p) (hm : m ≤ r) :
    matMatSaxpy A B = .ok (partialProduct (firstCols hq A) (firstRows hp B) m) := by
  rw [← matMatSaxpy_ok (firstCols hq A) (firstRows hp B) hm]
  refine forRange_congr (fun j _ => forRange_congr fun k hk C => ?_) 0
  simp only [col_firstCols hq A (by omega : k < r), item_firstRows hp B (by omega : k < r)]

/-! With columns missing, the first one that is missing ends the run. -/

/-- With too few columns in `A` the very first entry of `C` reads outside of it. There must be
an entry, or nothing is read. -/
theorem matMatDirect_outside (hm : 0 < m) (hn : 0 < n) (h : q < p) :
    matMatDirect A B = .error .indexError := by
  refine forRange_raises hn (fun j hj => by omega) fun C => ?_
  refine forRange_raises hm (fun i hi => by omega) fun C => ?_
  refine forRange_raises h (fun k hk C => ?_) fun C => ?_
  · simp only [item_ok hm hn, item_ok hm hk, item_ok (hk.trans h) hn, setItem_ok hm hn, bind,
      Except.bind]
    exact ⟨_, rfl⟩
  · simp only [item_ok hm hn, item_error (Or.inr (Nat.le_refl q)), bind, Except.bind]

/-- The columns of `A` are sliced whatever the shape of `C` is, so the error comes also when
`C` is empty. -/
theorem matMatOuter_outside (h : q < p) : matMatOuter A B = .error .indexError := by
  refine forRange_raises h (fun k hk C => ?_) fun C => ?_
  · simp only [col_ok hk, row_ok (hk.trans h), bind, Except.bind, pure, Except.pure]
    exact ⟨_, rfl⟩
  · simp only [col_error (Nat.le_refl q), bind, Except.bind]

/-! The products of vectors compare lengths. -/

/-- `dot` compares the lengths of its two vectors, and raises when they differ in either
direction. -/
theorem matMatDot_mismatch (hm : 0 < m) (hn : 0 < n) (h : q ≠ p) :
    matMatDot A B = .error .valueError := by
  refine forRange_raises hn (fun j hj => by omega) fun C => ?_
  refine forRange_raises hm (fun i hi => by omega) fun C => ?_
  simp only [row_ok hm, col_ok hn, dot, dif_neg h, bind, Except.bind]

/-- The product of a matrix and a vector makes the same test, once for each column of `C`. -/
theorem matMatVec_mismatch (hn : 0 < n) (h : q ≠ p) : matMatVec A B = .error .valueError := by
  refine forRange_raises hn (fun j hj => by omega) fun C => ?_
  simp only [col_ok hn, dotVec, dif_neg h, bind, Except.bind]

/-! Each routine on its own. -/

/-- The exact shapes on which the direct product raises, of those where `C` has an entry. -/
theorem matMatDirect_raises_iff (A : Matrix (Fin m) (Fin q) R) (B : Matrix (Fin p) (Fin n) R)
    (hm : 0 < m) (hn : 0 < n) : Raises (matMatDirect A B) ↔ q < p := by
  by_cases h : q < p
  · exact iff_of_true (raises_of_eq (matMatDirect_outside hm hn h)) h
  · exact iff_of_false (not_raises_of_eq (matMatDirect_firstCols (Nat.not_lt.mp h))) h

theorem matMatOuter_raises_iff (A : Matrix (Fin m) (Fin q) R) (B : Matrix (Fin p) (Fin n) R) :
    Raises (matMatOuter A B) ↔ q < p := by
  by_cases h : q < p
  · exact iff_of_true (raises_of_eq (matMatOuter_outside h)) h
  · exact iff_of_false (not_raises_of_eq (matMatOuter_firstCols (Nat.not_lt.mp h))) h

/-- The loop over the columns of `A` takes the number of its rows for the bound, so the shapes
that raise are others here. -/
theorem matMatSaxpy_raises_iff (A : Matrix (Fin m) (Fin q) R) (B : Matrix (Fin p) (Fin n) R)
    (hn : 0 < n) : Raises (matMatSaxpy A B) ↔ q < m ∨ p < m := by
  by_cases h : q < m ∨ p < m
  · exact iff_of_true (raises_of_eq (matMatSaxpy_outside A B hn h)) h
  · refine iff_of_false (not_raises_of_eq (matMatSaxpy_firstCols (r := m) ?_ ?_ le_rfl)) h
    · omega
    · omega

/-- All five routines reject arrays that do not conform exactly when `A` has fewer
columns than `B` has rows and also fewer than it has rows itself. -/
theorem nonconforming_rejected_iff (A : Matrix (Fin m) (Fin q) R) (B : Matrix (Fin p) (Fin n) R)
    (hm : 0 < m) (hn : 0 < n) (h : q ≠ p) :
    (Raises (matMatDirect A B) ∧ Raises (matMatDot A B) ∧ Raises (matMatOuter A B) ∧
      Raises (matMatSaxpy A B) ∧ Raises (matMatVec A B)) ↔ q < p ∧ q < m := by
  have hDot := raises_of_eq (matMatDot_mismatch (A := A) (B := B) hm hn h)
  have hVec := raises_of_eq (matMatVec_mismatch (A := A) (B := B) hn h)
  rw [matMatDirect_raises_iff A B hm hn, matMatOuter_raises_iff, matMatSaxpy_raises_iff A B hn]
  constructor
  · rintro ⟨hDirect, -, -, hSaxpy, -⟩
    omega
  · rintro ⟨hMissing, hRows⟩
    exact ⟨hMissing, hDot, hMissing, Or.inl hRows, hVec⟩

theorem nonconforming_rejected_iff_sample :
    Raises (matMatDirect (ones 2 1) (ones 2 1)) ∧ Raises (matMatDot (ones 2 1) (ones 2 1)) ∧
      Raises (matMatOuter (ones 2 1) (ones 2 1)) ∧ Raises (matMatSaxpy (ones 2 1) (ones 2 1)) ∧
      Raises (matMatVec (ones 2 1) (ones 2 1)) :=
  (nonconforming_rejected_iff _ _ (by decide) (by decide) (by decide)).mpr (by decide)

/-- With one column too many in `A` three of the routines return an array, as if
that column were not there. -/
theorem nonconforming_accepted :
    (matMatDirect (ones 1 2) (ones 1 1)).map (fun C => C 0 0) = .ok 1 ∧
    (matMatOuter (ones 1 2) (ones 1 1)).map (fun C => C 0 0) = .ok 1 ∧
    (matMatSaxpy (ones 1 2) (ones 1 1)).map (fun C => C 0 0) = .ok 1 ∧
    matMatDot (ones 1 2) (ones 1 1) = .error .valueError ∧
    matMatVec (ones 1 2) (ones 1 1) = .error .valueError :=
  ⟨rfl, rfl, rfl, rfl, rfl⟩

end Routines

end MatMat
