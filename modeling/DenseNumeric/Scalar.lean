import DenseNumeric.Element
import DenseNumeric.Decimal.Text

/-!
# Scalars

A single number at the border of an array: real if the array is real, complex
if it is complex. A real scalar and a complex one are never equal, though
their numbers may be.
-/

namespace DenseNumeric

/-- A real or a complex number in double precision. -/
inductive Scalar where
  | real (x : Float)
  | complex (z : Complex Float)
deriving DecidableEq

namespace Scalar

/-- The scalar of an element: complex for the complex element types. -/
def ofElement {α : Type} [Element α] (x : α) : Scalar :=
  if (Element.dtype α).isComplex then .complex (Element.toParts x)
  else .real (Element.toParts x).re

def toComplex : Scalar → Complex Float
  | real x => .ofReal x
  | complex z => z

def isComplex : Scalar → Bool
  | real _ => false
  | complex _ => true

def magnitude : Scalar → Float
  | real x => x.abs
  | complex z => z.magnitude

/-- Equality of numbers, within reals and within complex numbers. -/
instance : BEq Scalar where
  beq
    | real x, real y => x == y
    | complex z, complex w => z == w
    | _, _ => false

def text : Scalar → List Char
  | real x => Binary.text .binary64 x.toModel.unpack
  | complex z => z.text fun x => Binary.text .binary64 x.toModel.unpack

end Scalar

end DenseNumeric
