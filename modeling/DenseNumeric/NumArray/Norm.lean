import DenseNumeric.NumArray.Basic

/-!
# Norms

The Frobenius norm scales the components by the largest of them before they
are squared, so that it neither overflows nor vanishes early. The other norms
of a matrix are the largest column sum and the largest row sum of magnitudes.
-/

namespace DenseNumeric

/-- The Euclidean length of a list of components. It is undefined as soon as
one component is. -/
def euclideanNorm {R : Type} [Arith R] (xs : List R) : R :=
  let largest := Arith.largestOver xs Arith.abs
  if xs.any fun x => !(x == x) then 0 / 0
  else if largest == 0 || !Arith.isFinite largest then largest
  else largest * Arith.sqrt (Arith.sumOver xs fun x => x / largest * (x / largest))

/-- The largest sum of `f i j` over `j < n`, for `i < m`. -/
def largestSum {R : Type} [Arith R] (m n : Nat) (f : Nat → Nat → R) : R :=
  Arith.largestOver (List.range m) fun i => Arith.sumOver (List.range n) (f i)

namespace NumArray

def norm (a : NumArray) : Float := euclideanNorm a.storage.components

/-- A norm of any order. Only the Frobenius norm measures vectors. -/
def normWith (a : NumArray) (order : NormOrder) : Except Error Float :=
  let size i j := (a.entry i j).magnitude
  match order, a.shape with
  | .frobenius, _ => .ok a.norm
  | order, .vector _ => .error (.invalidArgument (.normOfVector order a.dims))
  | .one, .matrix m n => .ok (largestSum n m fun j i => size i j)
  | .infinity, .matrix m n => .ok (largestSum m n size)

end NumArray

end DenseNumeric
