import DenseNumeric.DenseMatrix
import DenseNumeric.Error
import DenseNumeric.LinearAlgebra.Record

/-!
# Inversion by elimination

The matrix is written beside the identity and reduced to the identity column
by column, each time dividing a pivot row by its pivot and subtracting
multiples of it from all other rows. What then stands in place of the
identity is the inverse. A column without a pivot ends the run: the matrix is
singular.

The algorithm is generic in the entries as well as in the reals that measure
them, so that it serves real and complex matrices, in floating point or
exactly.
-/

namespace DenseNumeric

/-- Entries that elimination can work with, and their size in the reals `R`. -/
class Entry (E : Type) (R : outParam Type) extends
    Inhabited E, Zero E, One E, Add E, Sub E, Mul E, Div E, BEq E where
  size : E → R

-- A type that has an arithmetic of its own takes its operations from there.
attribute [instance (low)] Entry.toInhabited Entry.toZero Entry.toOne Entry.toAdd Entry.toSub
  Entry.toMul Entry.toDiv Entry.toBEq

instance {R : Type} [Arith R] : Entry R R where
  size := Arith.abs

instance {R : Type} [Arith R] : Entry (Complex R) R where
  size := Complex.magnitude

/-- Where to look for the pivot of a column: the first entry on or below the
diagonal that is not zero, or the largest one. -/
inductive Pivoting where
  | firstNonzero
  | largest
deriving DecidableEq, Repr

namespace DenseMatrix

variable {E R : Type} [Arith R] [Entry E R] {m n : Nat}

/-- The row of the pivot for column `c`, if there is a pivot. -/
def pivotRow? (a : DenseMatrix m n E) (pivoting : Pivoting) (c : Nat) : Option Nat :=
  let rows := List.range' c (m - c)
  match pivoting with
  | .firstNonzero => rows.find? fun r => !(a r c == 0)
  | .largest =>
    let best := rows.foldl
      (fun best r => if best.2 < Entry.size (a r c) then (r, Entry.size (a r c)) else best)
      (c, (0 : R))
    if 0 < best.2 then some best.1 else none

/-- Row `i` divided by its entry in column `i`, and column `i` cleared in all
other rows. Rows that are clear already stay as they are. -/
def clearColumn (a : DenseMatrix m n E) (i : Nat) : DenseMatrix m n E :=
  let pivotRow : Vector E n := .ofFn fun j => a i j / a i i
  ofFn fun r j =>
    if r = i then pivotRow.getD j default
    else if a r i == 0 then a r j
    else a r j - a r i * pivotRow.getD j default

/-- Clears columns one after another, each with a pivot from on or below the
diagonal. A pivot no larger than `tiny` is noted. -/
def clearColumns (pivoting : Pivoting) (scale tiny : R) :
    List Nat → DenseMatrix m n E → Logged R (Except Error (DenseMatrix m n E))
  | [], a => .quiet (.ok a)
  | i :: is, a =>
    match a.pivotRow? pivoting i with
    | none => .quiet (.error (.singularMatrix i))
    | some r =>
      let swapped := a.swapRows i r
      let size := Entry.size (swapped i i)
      let noted : List (Record R) := if size ≤ tiny then [.tinyPivot size i scale] else []
      (Logged.mk noted (swapped.clearColumn i)).andThen (clearColumns pivoting scale tiny is)

def besideIdentity (a : DenseMatrix n n E) : DenseMatrix n (2 * n) E :=
  ofFn fun i j => if j < n then a i j else if j = n + i then 1 else 0

def rightHalf (a : DenseMatrix n (2 * n) E) : DenseMatrix n n E :=
  ofFn fun i j => a i (n + j)

/-- The inverse. A pivot is tiny if it is within the rounding error of the
largest entry, times the order of the matrix. -/
def inverse (a : DenseMatrix n n E) (pivoting : Pivoting) :
    Logged R (Except Error (DenseMatrix n n E)) :=
  let scale := Arith.largestOver a.entries Entry.size
  let tiny := Arith.epsilon * scale * (n : R)
  (clearColumns pivoting scale tiny (List.range n) a.besideIdentity).map (·.map rightHalf)

end DenseMatrix

end DenseNumeric
