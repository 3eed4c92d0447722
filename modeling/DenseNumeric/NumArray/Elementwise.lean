import DenseNumeric.NumArray.Basic

/-!
# Elementwise arithmetic

Two arrays of one shape, or an array and a scalar, are combined element by
element. The result has the type of the left operand. Real operands are
combined in real arithmetic; as soon as either is complex, both are.
-/

namespace DenseNumeric

inductive BinaryOp where
  | add
  | sub
  | mul
  | div
deriving DecidableEq, Repr

/-- The operation on numbers of any kind. -/
def BinaryOp.apply {E : Type} [Add E] [Sub E] [Mul E] [Div E] : BinaryOp → E → E → E
  | add, x, y => x + y
  | sub, x, y => x - y
  | mul, x, y => x * y
  | div, x, y => x / y

/-- The operation on two elements, in real arithmetic if both are real. -/
def BinaryOp.onElements (op : BinaryOp) (complex : Bool) (z w : Complex Float) : Complex Float :=
  if complex then op.apply z w else .ofReal (op.apply z.re w.re)

namespace NumArray

/-- An array of the same shape and type, with each element replaced. -/
def mapElements (a : NumArray) (f : Complex Float → Complex Float) : NumArray :=
  ⟨a.shape, .ofComplex (a.toComplexArray.map f) a.dtype⟩

/-- Combines two arrays of the same shape. -/
def combine (op : BinaryOp) (a b : NumArray) : Except Error NumArray :=
  if a.shape ≠ b.shape then .error (.shapeMismatch a.dims b.dims)
  else
    let values := a.toComplexArray.zipWith (op.onElements (a.isComplex || b.isComplex))
      b.toComplexArray
    .ok ⟨a.shape, .ofComplex values a.dtype⟩

def combineScalar (op : BinaryOp) (a : NumArray) (s : Scalar) : NumArray :=
  a.mapElements fun z => op.onElements (a.isComplex || s.isComplex) z s.toComplex

def neg (a : NumArray) : NumArray := a.mapElements fun z => -z

def conj (a : NumArray) : NumArray := a.mapElements Complex.conj

end NumArray

end DenseNumeric
