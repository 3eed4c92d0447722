import DenseNumeric.LinearAlgebra.Eigensystem
import DenseNumeric.LinearAlgebra.Elimination
import DenseNumeric.NumArray.Basic

/-!
# Inverses and decompositions of arrays

A square array is widened to a working matrix, the work is done in double
precision, and the result is quantized once. Inverses keep the type of the
array, except that integers become reals; the other results have its complex
counterpart.
-/

namespace DenseNumeric

/-! ## Square arrays -/

def matrixDims (dims : List Nat) : Except Error (Nat × Nat) :=
  match dims with
  | [m, n] => .ok (m, n)
  | _ => .error (.invalidArgument (.notMatrix dims))

def squareOrder (dims : List Nat) : Except Error Nat := do
  let (m, n) ← matrixDims dims
  if m ≠ n then throw (.shapeMismatch [m, m] [m, n])
  return n

def DenseMatrix.toNumArray {n : Nat} (a : DenseMatrix n n (Complex Float)) (dtype : DType) :
    NumArray :=
  let shape := Shape.matrix n n
  ⟨shape, .ofComplex (shape.tabulate a) dtype⟩

namespace NumArray

def toMatrix (a : NumArray) (n : Nat) : DenseMatrix n n (Complex Float) := .ofFn a.entry

/-! ## Inverses -/

/-- The inverse of a square array, real arrays in real arithmetic. -/
def inverseWith (a : NumArray) (pivoting : Pivoting) : Logged Float (Except Error NumArray) :=
  match squareOrder a.dims with
  | .error e => .quiet (.error e)
  | .ok n =>
    let dtype := a.dtype.floatCounterpart
    if a.isComplex then
      ((a.toMatrix n).inverse pivoting).map fun r => r.map (·.toNumArray dtype)
    else
      let parts : DenseMatrix n n Float := .ofFn fun i j => (a.entry i j).re
      let ofReals (b : DenseMatrix n n Float) : DenseMatrix n n (Complex Float) :=
        .ofFn fun i j => .ofReal (b i j)
      (parts.inverse pivoting).map fun r => r.map fun b => (ofReals b).toNumArray dtype

/-- The inverse, with the first nonzero entry of a column as its pivot. -/
def inverse (a : NumArray) : Logged Float (Except Error NumArray) :=
  a.inverseWith .firstNonzero

/-! ## Hessenberg and Schur form -/

/-- A unitary basis, and the matrix expressed in it. -/
structure Factors where
  basis : NumArray
  form : NumArray
deriving DecidableEq

/-- The factors of a working matrix, in one element type. -/
def Factors.ofSimilar {n : Nat} (p : Similar n Float) (dtype : DType) : Factors where
  basis := (p.basis.getD .identity).toNumArray dtype
  form := p.matrix.toNumArray dtype

def hessenberg (a : NumArray) : Except Error Factors := do
  let n ← squareOrder a.dims
  return .ofSimilar ((a.toMatrix n).hessenberg true) a.dtype.complexCounterpart

/-- The Hessenberg form in the element type of the array, which is complex. -/
def hessenbergInPlace (a : NumArray) : Except Error Factors :=
  if a.isComplex then a.hessenberg
  else .error (.unsupportedDType a.dtype "hessenberg_in_place")

def schur (a : NumArray) : Logged Float (Except Error Factors) :=
  match squareOrder a.dims with
  | .error e => .quiet (.error e)
  | .ok n =>
    ((a.toMatrix n).schur defaultLimit).map fun r =>
      r.map (Factors.ofSimilar · a.dtype.complexCounterpart)

/-! ## Eigenvalues and eigenvectors -/

/-- Eigenvalues as a vector, left eigenvectors as rows and right ones as
columns of matrices, where asked for. -/
structure EigenArrays where
  values : NumArray
  left : Option NumArray
  right : Option NumArray
deriving DecidableEq

def eig (a : NumArray) (options : EigenOptions) : Logged Float (Except Error EigenArrays) :=
  match squareOrder a.dims with
  | .error e => .quiet (.error e)
  | .ok n =>
    let dtype := a.dtype.complexCounterpart
    ((a.toMatrix n).eigensystem options).map fun r => r.map fun s =>
      { values := ⟨.vector n, .ofComplex s.values.toArray dtype⟩
        left := s.left.map (·.toNumArray dtype)
        right := s.right.map (·.toNumArray dtype) }

def eigvals (a : NumArray) : Logged Float (Except Error NumArray) :=
  (a.eig .valuesOnly).map fun r => r.map EigenArrays.values

end NumArray

end DenseNumeric
