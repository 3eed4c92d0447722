import DenseNumeric.LinearAlgebra.Schur
import DenseNumeric.LinearAlgebra.Triangular

/-!
# Eigenvalues and eigenvectors

A matrix is reduced to Hessenberg form and from there to a triangular form,
whose diagonal has the eigenvalues. The eigenvectors of the triangular form,
expressed in the basis of the reductions and scaled to length one, are those
of the matrix.
-/

namespace DenseNumeric

variable {R : Type} [Arith R] {n : Nat}

/-- Which eigenvectors are wanted, and how many sweeps a block may take. -/
structure EigenOptions where
  left : Bool := false
  right : Bool := true
  maxIterations : Nat := defaultLimit
deriving DecidableEq, Repr

def EigenOptions.valuesOnly : EigenOptions := { right := false }

/-- Eigenvalues in the order of the triangular form, and the eigenvectors
that were asked for: left ones as rows, right ones as columns. -/
structure Eigensystem (n : Nat) (R : Type) where
  values : List (Complex R)
  left : Option (DenseMatrix n n (Complex R))
  right : Option (DenseMatrix n n (Complex R))

namespace DenseMatrix

/-- A matrix in Hessenberg form, and the basis if it is wanted. -/
def hessenberg (a : DenseMatrix n n (Complex R)) (withBasis : Bool) : Similar n R :=
  let r := Reduction.ofMatrix a
  ⟨r.matrix, if withBasis then some r.basis else none⟩

def schur (a : DenseMatrix n n (Complex R)) (limit : Nat) :
    Logged R (Except Error (Similar n R)) :=
  (a.hessenberg true).triangularize limit

/-- The eigensystem of a triangular form. Eigenvectors need the basis. -/
def eigensystemOf (p : Similar n R) (options : EigenOptions) : Eigensystem n R where
  values := p.matrix.diagonal
  left := if options.left then
      p.basis.map fun q => (p.matrix.leftEigenvectors.mul q.adjoint).normalizeRows
    else none
  right := if options.right then
      p.basis.map fun q => (q.mul p.matrix.rightEigenvectors).normalizeColumns
    else none

/-- The eigensystem of a matrix. A single number is its own eigenvalue, and
needs no run. -/
def eigensystem (a : DenseMatrix n n (Complex R)) (options : EigenOptions) :
    Logged R (Except Error (Eigensystem n R)) :=
  if n = 1 then
    .quiet (.ok {
      values := a.diagonal
      left := if options.left then some identity else none
      right := if options.right then some identity else none })
  else
    let form := a.hessenberg (options.left || options.right)
    (form.triangularize options.maxIterations).andThen fun
      | .error e => .quiet (.error e)
      | .ok p => ⟨[.eigensystem n options.left options.right], .ok (eigensystemOf p options)⟩

end DenseMatrix

end DenseNumeric
