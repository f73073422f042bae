import Coursework.MatMat.Routines
import Mathlib.Algebra.BigOperators.Fin
import Mathlib.Algebra.BigOperators.Intervals
import Mathlib.Data.Matrix.Basic

/-! What the five routines compute on arrays of conforming shapes. -/

namespace MatMat

open Loop Matrix

section Access

variable {R : Type} {m n i j : Nat} {A : Matrix (Fin m) (Fin n) R}

/-- An index inside the array reads the entry. -/
theorem item_ok (hi : i < m) (hj : j < n) : item A i j = .ok (A ⟨i, hi⟩ ⟨j, hj⟩) :=
  dif_pos ⟨hi, hj⟩

/-- An index past the end raises. No loop of the routines uses a negative one, which Python
would count from the end. -/
theorem item_error (h : m ≤ i ∨ n ≤ j) : item A i j = .error .indexError :=
  dif_neg fun hIn => by omega

/-- Only the entry at the two indices changes. -/
theorem setItem_ok (hi : i < m) (hj : j < n) (x : R) : setItem A i j x =
    .ok (of fun a b => if a.val = i ∧ b.val = j then x else A a b) := if_pos ⟨hi, hj⟩

theorem row_ok (hi : i < m) : row A i = .ok fun b => A ⟨i, hi⟩ b := dif_pos hi

theorem col_ok (hj : j < n) : col A j = .ok fun a => A a ⟨j, hj⟩ := dif_pos hj

theorem col_error (hj : n ≤ j) : col A j = .error .indexError := dif_neg (Nat.not_lt.mpr hj)

/-- A column is replaced as a whole, and the other columns stay. -/
theorem setCol_ok (hj : j < n) (v : Fin m → R) : setCol A j v =
    .ok (of fun a b => if b.val = j then v a else A a b) := if_pos hj

end Access

section Filling

variable {R : Type} {m n : Nat} {C D : Matrix (Fin m) (Fin n) R} {j : Nat}

/-- A loop over the rows that sets one entry after the other sets a column. -/
theorem rows_ok {body : Nat → Matrix (Fin m) (Fin n) R → Except NumpyError _} (v : Fin m → R)
    (hStep : ∀ i (hi : i < m) E, (∀ a b, b.val = j → i ≤ a.val → E a b = C a b) →
      body i E = .ok (of fun a b => if a.val = i ∧ b.val = j then v ⟨i, hi⟩ else E a b)) :
    forRange m body C = .ok (of fun a b => if b.val = j then v a else C a b) := by
  have hRun : forRange m body C =
      .ok (of fun a b => if a.val < m ∧ b.val = j then v a else C a b) :=
    forRange_eq (f := fun i => of fun a b => if a.val < i ∧ b.val = j then v a else C a b) ?_ ?_
  · rw [hRun]
    congr 1
    ext a b
    rw [of_apply, of_apply]
    exact if_congr (and_iff_right a.isLt) rfl rfl
  · ext a b
    rw [of_apply, if_neg (by omega)]
  · intro i hi
    rw [hStep i hi]
    · congr 1
      ext a b
      rw [of_apply, of_apply, of_apply]
      by_cases hHere : a.val = i ∧ b.val = j
      · obtain ⟨rfl, hb⟩ := hHere
        simp [hb]
      · rw [if_neg hHere]
        exact if_congr (by omega) rfl rfl
    · intro a b _ ha
      rw [of_apply, if_neg (by omega)]

variable [CommRing R]

/-- The first `j` columns of `C` are those of `D`, and the others are zero. -/
def FilledTo (D : Matrix (Fin m) (Fin n) R) (j : Nat) (C : Matrix (Fin m) (Fin n) R) : Prop :=
  ∀ a b, C a b = if b.val < j then D a b else 0

/-- One round of the loop over the columns fills one more of them. -/
theorem FilledTo.next (h : FilledTo D j C) (hj : j < n) :
    FilledTo D (j + 1) (of fun a b => if b.val = j then D a ⟨j, hj⟩ else C a b) := by
  intro a b
  rw [of_apply, h a b]
  by_cases hb : b.val = j
  · subst hb
    simp
  · rw [if_neg hb]
    exact if_congr (by omega) rfl rfl

/-- The column that comes next is still zero, as the array was made by `zeros`. The sums start
from there. -/
theorem FilledTo.column_zero (h : FilledTo D j C) (hj : j < n) (a : Fin m) : C a ⟨j, hj⟩ = 0 := by
  rw [h a ⟨j, hj⟩]
  exact if_neg (Nat.lt_irrefl j)

/-- A loop that fills one column after the other returns the full matrix. -/
theorem columns_ok {body : Nat → Matrix (Fin m) (Fin n) R → Except NumpyError _}
    (hStep : ∀ j (hj : j < n) C, FilledTo D j C →
      body j C = .ok (of fun a b => if b.val = j then D a ⟨j, hj⟩ else C a b)) :
    forRange n body 0 = .ok D := by
  have hRun : ∃ C, forRange n body 0 = .ok C ∧ FilledTo D n C :=
    forRange_ok (fun a b => rfl) fun j hj C hC => ⟨_, hStep j hj C hC, hC.next hj⟩
  obtain ⟨C, hRun, hFilled⟩ := hRun
  rw [hRun]
  congr 1
  ext a b
  rw [hFilled a b, if_pos b.isLt]

end Filling

section Terms

variable {R : Type} [CommRing R] {m n p : Nat} {A : Matrix (Fin m) (Fin p) R}
  {B : Matrix (Fin p) (Fin n) R}

/-- The part of an entry of the product that the index `k` contributes. -/
def term (A : Matrix (Fin m) (Fin p) R) (B : Matrix (Fin p) (Fin n) R) (a : Fin m) (b : Fin n)
    (k : Nat) : R :=
  if h : k < p then A a ⟨k, h⟩ * B ⟨k, h⟩ b else 0

/-- Inside the loop's bound the term is the product of the two entries. -/
theorem term_eq {k : Nat} (hk : k < p) (a : Fin m) (b : Fin n) :
    term A B a b k = A a ⟨k, hk⟩ * B ⟨k, hk⟩ b := dif_pos hk

/-- The contributions of the indices below `t`. -/
def partialProduct (A : Matrix (Fin m) (Fin p) R) (B : Matrix (Fin p) (Fin n) R) (t : Nat) :
    Matrix (Fin m) (Fin n) R :=
  of fun a b => ∑ k ∈ Finset.range t, term A B a b k

/-- One round adds one term to every entry of the product. -/
theorem partialProduct_succ (A : Matrix (Fin m) (Fin p) R) (B : Matrix (Fin p) (Fin n) R) (t : Nat)
    (a : Fin m) (b : Fin n) :
    partialProduct A B (t + 1) a b = partialProduct A B t a b + term A B a b t :=
  Finset.sum_range_succ _ _

/-- Every entry of the product is the sum of its contributions. -/
theorem partialProduct_eq (A : Matrix (Fin m) (Fin p) R) (B : Matrix (Fin p) (Fin n) R) :
    partialProduct A B p = A * B := by
  ext a b
  rw [partialProduct, of_apply, ← Fin.sum_univ_eq_sum_range, mul_apply]
  exact Finset.sum_congr rfl fun k _ => term_eq k.isLt a b

end Terms

section Routines

variable {R : Type} [CommRing R] {m n p : Nat}

/-- The innermost loop of `matMatDirect` adds up one entry. -/
theorem accumulate_ok {A : Matrix (Fin m) (Fin p) R} {B : Matrix (Fin p) (Fin n) R}
    {E : Matrix (Fin m) (Fin n) R} {i j : Nat} (hi : i < m) (hj : j < n)
    (hZero : E ⟨i, hi⟩ ⟨j, hj⟩ = 0) :
    forRange p (fun k C => do
      let c ← item C i j
      let a ← item A i k
      let b ← item B k j
      setItem C i j (c + a * b)) E =
    .ok (of fun a b => if a.val = i ∧ b.val = j then (A * B) ⟨i, hi⟩ ⟨j, hj⟩ else E a b) := by
  rw [← partialProduct_eq]
  refine forRange_eq (f := fun k => of fun a b =>
    if a.val = i ∧ b.val = j then partialProduct A B k ⟨i, hi⟩ ⟨j, hj⟩ else E a b) ?_ ?_
  · ext a b
    rw [of_apply]
    split
    · next hHere =>
        obtain rfl : a = ⟨i, hi⟩ := Fin.ext hHere.1
        obtain rfl : b = ⟨j, hj⟩ := Fin.ext hHere.2
        rw [hZero]
        rfl
    · rfl
  · intro k hk
    simp only [item_ok hi hj, item_ok hi hk, item_ok hk hj, setItem_ok hi hj, bind, Except.bind]
    congr 1
    ext a b
    simp only [of_apply, partialProduct_succ, term_eq hk]
    split <;> simp

/-- For conforming matrices the three nested loops compute the product. -/
theorem matMatDirect_ok (A : Matrix (Fin m) (Fin p) R) (B : Matrix (Fin p) (Fin n) R) :
    matMatDirect A B = .ok (A * B) := by
  refine columns_ok fun j hj C hC => rows_ok (fun a => (A * B) a ⟨j, hj⟩) fun i hi E hE => ?_
  apply accumulate_ok hi hj
  rw [hE ⟨i, hi⟩ ⟨j, hj⟩ rfl (Nat.le_refl i)]
  exact hC.column_zero hj _

/-- The innermost loop is a call of `dot`, and its two vectors have equal lengths here. -/
theorem matMatDot_ok (A : Matrix (Fin m) (Fin p) R) (B : Matrix (Fin p) (Fin n) R) :
    matMatDot A B = .ok (A * B) := by
  refine columns_ok fun j hj C _ => rows_ok (fun a => (A * B) a ⟨j, hj⟩) fun i hi E _ => ?_
  simp only [row_ok hi, col_ok hj, dot, dif_pos, setItem_ok hi hj, bind, Except.bind]
  rfl

/-- The sum of the outer products, one for each column of `A`. The partial sums are those of
the product. -/
theorem matMatOuter_ok (A : Matrix (Fin m) (Fin p) R) (B : Matrix (Fin p) (Fin n) R) :
    matMatOuter A B = .ok (A * B) := by
  rw [← partialProduct_eq]
  refine forRange_eq rfl fun k hk => ?_
  simp only [col_ok hk, row_ok hk, bind, Except.bind, pure, Except.pure]
  congr 1
  ext a b
  rw [partialProduct_succ, term_eq hk]
  rfl

/-- The product column by column. -/
theorem matMatVec_ok (A : Matrix (Fin m) (Fin p) R) (B : Matrix (Fin p) (Fin n) R) :
    matMatVec A B = .ok (A * B) := by
  refine columns_ok fun j hj C hC => ?_
  simp only [col_ok hj, dotVec, dif_pos, setCol_ok hj, bind, Except.bind]
  congr 1
  ext a b
  rw [of_apply, of_apply, hC.column_zero hj a, zero_add]
  rfl

/-- Four of the routines compute the product, whatever the shapes. -/
theorem products_agree (A : Matrix (Fin m) (Fin p) R) (B : Matrix (Fin p) (Fin n) R) :
    ∃ C : Matrix (Fin m) (Fin n) R, (∀ i j, C i j = ∑ k, A i k * B k j) ∧
      matMatDirect A B = .ok C ∧ matMatDot A B = .ok C ∧ matMatOuter A B = .ok C ∧
      matMatVec A B = .ok C :=
  ⟨A * B, fun _ _ => mul_apply, matMatDirect_ok A B, matMatDot_ok A B, matMatOuter_ok A B,
    matMatVec_ok A B⟩

/-- One step of `matMatSaxpy` adds a multiple of a column of `A` to a column. -/
theorem saxpy_ok {A : Matrix (Fin m) (Fin p) R} {B : Matrix (Fin p) (Fin n) R}
    {C : Matrix (Fin m) (Fin n) R} {j k : Nat} (hj : j < n) (hk : k < p) :
    (do
      let c ← col C j
      let a ← col A k
      let b ← item B k j
      setCol C j fun i => c i + a i * b) =
    .ok (of fun a b => if b.val = j then C a ⟨j, hj⟩ + term A B a ⟨j, hj⟩ k else C a b) := by
  simp only [col_ok hj, col_ok hk, item_ok hk hj, setCol_ok hj, term_eq hk, bind, Except.bind]

/-- The loop of `matMatSaxpy` over the columns of `A` runs to the number of rows of
`A`. With at least as many columns it stops early. -/
theorem matMatSaxpy_ok (A : Matrix (Fin m) (Fin p) R) (B : Matrix (Fin p) (Fin n) R) (h : m ≤ p) :
    matMatSaxpy A B = .ok (partialProduct A B m) := by
  refine columns_ok fun j hj C hC => ?_
  refine forRange_eq (f := fun k => of fun a b =>
    if b.val = j then partialProduct A B k a ⟨j, hj⟩ else C a b) ?_ fun k hk => ?_
  · ext a b
    rw [of_apply]
    split
    · next hHere =>
        obtain rfl : b = ⟨j, hj⟩ := Fin.ext hHere
        rw [hC.column_zero hj a]
        rfl
    · rfl
  · rw [saxpy_ok hj (by omega)]
    congr 1
    ext a b
    simp only [of_apply, partialProduct_succ]
    split <;> simp

/-- The loop over the columns of `A` ends at the first column of `A`, or row of `B`,
that is not there. -/
theorem matMatSaxpy_outside {q : Nat} (A : Matrix (Fin m) (Fin q) R) (B : Matrix (Fin p) (Fin n) R)
    (hn : 0 < n) (h : q < m ∨ p < m) : matMatSaxpy A B = .error .indexError := by
  refine forRange_raises hn (fun j hj => by omega) fun C => ?_
  refine forRange_raises (by omega : min q p < m) (fun k hk C => ?_) fun C => ?_
  · simp only [col_ok hn, col_ok (by omega : k < q), item_ok (by omega : k < p) hn, setCol_ok hn,
      bind, Except.bind]
    exact ⟨_, rfl⟩
  · by_cases hCols : q ≤ p
    · rw [min_eq_left hCols]
      simp only [col_ok hn, col_error (Nat.le_refl q), bind, Except.bind]
    · rw [min_eq_right (by omega)]
      simp only [col_ok hn, col_ok (by omega : p < q), item_error (Or.inl (Nat.le_refl p)), bind,
        Except.bind]

/-- With fewer columns than rows it asks for a column that is not there. -/
theorem matMatSaxpy_error (A : Matrix (Fin m) (Fin p) R) (B : Matrix (Fin p) (Fin n) R)
    (hn : 0 < n) (h : p < m) : matMatSaxpy A B = .error .indexError :=
  matMatSaxpy_outside A B hn (Or.inl h)

/-- The columns of `A` that `matMatSaxpy` leaves out. -/
theorem product_eq_partialProduct_add (A : Matrix (Fin m) (Fin p) R) (B : Matrix (Fin p) (Fin n) R)
    {t : Nat} (h : t ≤ p) (i : Fin m) (j : Fin n) :
    (A * B) i j = partialProduct A B t i j + ∑ k with t ≤ k.val, A i k * B k j := by
  rw [← partialProduct_eq, partialProduct, partialProduct, of_apply, of_apply,
    ← Finset.sum_range_add_sum_Ico _ h]
  congr 1
  calc ∑ k ∈ Finset.Ico t p, term A B i j k
      = ∑ k ∈ Finset.range p with t ≤ k, term A B i j k := by
        congr 1
        ext k
        simp [and_comm]
    _ = ∑ k : Fin p, if t ≤ k.val then term A B i j k else 0 := by
        rw [Finset.sum_filter, ← Fin.sum_univ_eq_sum_range fun k =>
          if t ≤ k then term A B i j k else 0]
    _ = ∑ k with t ≤ k.val, A i k * B k j := by
        rw [Finset.sum_filter]
        exact Finset.sum_congr rfl fun k _ => by rw [term_eq k.isLt]

/-- `matMatSaxpy` computes the product exactly when `A` has no more rows than
columns and the columns that it leaves out contribute nothing. -/
theorem matMatSaxpy_correct_iff (A : Matrix (Fin m) (Fin p) R) (B : Matrix (Fin p) (Fin n) R)
    (hn : 0 < n) :
    (∃ C, matMatSaxpy A B = .ok C ∧ matMatDirect A B = .ok C) ↔
      m ≤ p ∧ ∀ i j, ∑ k with m ≤ k.val, A i k * B k j = 0 := by
  rw [matMatDirect_ok]
  by_cases h : m ≤ p
  · rw [matMatSaxpy_ok A B h]
    constructor
    · rintro ⟨C, hSaxpy, hDirect⟩
      refine ⟨h, fun i j => ?_⟩
      have hEntry := product_eq_partialProduct_add A B h i j
      rw [Except.ok.inj (hDirect.trans hSaxpy.symm)] at hEntry
      exact left_eq_add.mp hEntry
    · rintro ⟨-, hRest⟩
      refine ⟨A * B, congrArg _ ?_, rfl⟩
      ext i j
      rw [product_eq_partialProduct_add A B h i j, hRest i j, add_zero]
  · rw [matMatSaxpy_error A B hn (by omega)]
    constructor
    · rintro ⟨C, hSaxpy, -⟩
      cases hSaxpy
    · rintro ⟨hLe, -⟩
      exact absurd hLe h

/-- An array of ones. -/
def ones (m n : Nat) : Matrix (Fin m) (Fin n) Int := of fun _ _ => 1

/-- A column with a one on top. -/
def unitColumn : Matrix (Fin 2) (Fin 1) Int := of fun k _ => if k = 0 then 1 else 0

theorem matMatSaxpy_correct_iff_sample : ∃ C,
    matMatSaxpy (ones 1 2) unitColumn = .ok C ∧ matMatDirect (ones 1 2) unitColumn = .ok C :=
  (matMatSaxpy_correct_iff _ _ (by decide)).mpr (by decide)

/-- With two columns and one row the second column is left out; with two rows
and one column there is no second column. -/
theorem matMatSaxpy_misses :
    (matMatSaxpy (ones 1 2) (ones 2 1)).map (fun C => C 0 0) = .ok 1 ∧
    (matMatDirect (ones 1 2) (ones 2 1)).map (fun C => C 0 0) = .ok 2 ∧
    matMatSaxpy (ones 2 1) (ones 1 1) = .error .indexError ∧
    (matMatDirect (ones 2 1) (ones 1 1)).map (fun C => C 1 0) = .ok 1 :=
  ⟨rfl, rfl, rfl, rfl⟩

end Routines

end MatMat
