import Coursework.Library.Loops
import Mathlib.Data.Matrix.Mul

/-! The five matrix products, over exact arithmetic. An array carries its shape in
its type: `A` has `m` rows and `q` columns, `B` has `p` rows and `n` columns, and
`q = p` is not assumed. -/

namespace MatMat

open Loop Matrix

/-- What NumPy raises. -/
inductive NumpyError where
  | indexError
  | valueError
deriving DecidableEq, Repr

section Numpy

variable {R : Type} {m n p q : Nat}

/-- `A[i,j]`. -/
def item (A : Matrix (Fin m) (Fin n) R) (i j : Nat) : Except NumpyError R :=
  if h : i < m ∧ j < n then .ok (A ⟨i, h.1⟩ ⟨j, h.2⟩) else .error .indexError

/-- `A[i,j] = x`. -/
def setItem (A : Matrix (Fin m) (Fin n) R) (i j : Nat) (x : R) :
    Except NumpyError (Matrix (Fin m) (Fin n) R) :=
  if i < m ∧ j < n then .ok (of fun a b => if a.val = i ∧ b.val = j then x else A a b)
  else .error .indexError

/-- `A[i,:]`. -/
def row (A : Matrix (Fin m) (Fin n) R) (i : Nat) : Except NumpyError (Fin n → R) :=
  if h : i < m then .ok fun j => A ⟨i, h⟩ j else .error .indexError

/-- `A[:,j]`. -/
def col (A : Matrix (Fin m) (Fin n) R) (j : Nat) : Except NumpyError (Fin m → R) :=
  if h : j < n then .ok fun i => A i ⟨j, h⟩ else .error .indexError

/-- `A[:,j] = v`. -/
def setCol (A : Matrix (Fin m) (Fin n) R) (j : Nat) (v : Fin m → R) :
    Except NumpyError (Matrix (Fin m) (Fin n) R) :=
  if j < n then .ok (of fun a b => if b.val = j then v a else A a b) else .error .indexError

variable [CommRing R]

/-- `dot(u, v)` of two vectors. -/
def dot (u : Fin q → R) (v : Fin p → R) : Except NumpyError R :=
  if h : q = p then .ok (u ⬝ᵥ (v ∘ Fin.cast h)) else .error .valueError

/-- `dot(A, v)` of a matrix and a vector. -/
def dotVec (A : Matrix (Fin m) (Fin q) R) (v : Fin p → R) : Except NumpyError (Fin m → R) :=
  if h : q = p then .ok (A *ᵥ (v ∘ Fin.cast h)) else .error .valueError

/-- `outer(u, v)`. -/
def outer (u : Fin m → R) (v : Fin n → R) : Matrix (Fin m) (Fin n) R := vecMulVec u v

end Numpy

section Routines

variable {R : Type} [CommRing R] {m n p q : Nat}

/-! In every routine `p` is the number of rows of `B`: the second unpacking of a
shape overwrites what the first one found. Vectors that are added have as many
entries as `A` has rows. -/

def matMatDirect (A : Matrix (Fin m) (Fin q) R) (B : Matrix (Fin p) (Fin n) R) :
    Except NumpyError (Matrix (Fin m) (Fin n) R) :=
  forRange n (fun j => forRange m fun i => forRange p fun k C => do
    let c ← item C i j
    let a ← item A i k
    let b ← item B k j
    setItem C i j (c + a * b)) 0

def matMatDot (A : Matrix (Fin m) (Fin q) R) (B : Matrix (Fin p) (Fin n) R) :
    Except NumpyError (Matrix (Fin m) (Fin n) R) :=
  forRange n (fun j => forRange m fun i C => do
    let u ← row A i
    let v ← col B j
    let x ← dot u v
    setItem C i j x) 0

def matMatOuter (A : Matrix (Fin m) (Fin q) R) (B : Matrix (Fin p) (Fin n) R) :
    Except NumpyError (Matrix (Fin m) (Fin n) R) :=
  forRange p (fun k C => do
    let u ← col A k
    let v ← row B k
    pure (C + outer u v)) 0

def matMatSaxpy (A : Matrix (Fin m) (Fin q) R) (B : Matrix (Fin p) (Fin n) R) :
    Except NumpyError (Matrix (Fin m) (Fin n) R) :=
  forRange n (fun j => forRange m fun k C => do
    let c ← col C j
    let a ← col A k
    let b ← item B k j
    setCol C j fun i => c i + a i * b) 0

def matMatVec (A : Matrix (Fin m) (Fin q) R) (B : Matrix (Fin p) (Fin n) R) :
    Except NumpyError (Matrix (Fin m) (Fin n) R) :=
  forRange n (fun j C => do
    let c ← col C j
    let b ← col B j
    let x ← dotVec A b
    setCol C j fun i => c i + x i) 0

end Routines

end MatMat
