import DenseNumeric.NumArray.Basic

/-!
# Matrix products

The entry of a product is a sum of products, added up from zero along the
inner extent, in real arithmetic if both factors are real. The result has the
common type of the factors, and only the finished sums are quantized to it.
-/

namespace DenseNumeric

/-- The extents of a product: the outer ones and the inner one between them. -/
structure ProductDims where
  rows : Nat
  inner : Nat
  cols : Nat
deriving DecidableEq, Repr

/-- Checks the shapes of two factors. The left one, if it is no matrix, is at
fault before the right one. -/
def ProductDims.ofDims (a b : List Nat) : Except Error ProductDims :=
  match a, b with
  | [m, k], [k', n] => if k = k' then .ok ⟨m, k, n⟩ else .error (.shapeMismatch [k, n] b)
  | _, _ =>
    let wrong := if a.length ≠ 2 then a else b
    .error (.shapeMismatch [1, wrong.foldl (· * ·) 1] wrong)

/-- The sum of `f p * g p` for `p` below `n`. -/
def dot {E : Type} [Zero E] [Add E] [Mul E] (n : Nat) (f g : Nat → E) : E :=
  Arith.sumOver (List.range n) fun p => f p * g p

def NumArray.matmul (a b : NumArray) : Except Error NumArray := do
  let ⟨m, k, n⟩ ← ProductDims.ofDims a.dims b.dims
  let shape := Shape.matrix m n
  let values : Array (Complex Float) :=
    if a.isComplex || b.isComplex then
      shape.tabulate fun i j => dot k (a.entry i) (b.entry · j)
    else
      shape.tabulate fun i j => .ofReal (dot k (a.entry i · |>.re) (b.entry · j |>.re))
  return ⟨shape, .ofComplex values (a.dtype.promote b.dtype)⟩

end DenseNumeric
