import DenseNumeric.Complex
import DenseNumeric.DType

/-!
# Elements

The types whose values can be the elements of an array, one for each
`DType`. An element is put into an array as a pair of double-precision
components, and is read back from such a pair by rounding.
-/

namespace DenseNumeric

/-! ## Complex numbers of either precision -/

namespace Complex

/-- Both parts rounded to single precision. -/
def narrow (z : Complex Float) : Complex Float32 := ⟨Binary.narrow z.re, Binary.narrow z.im⟩

def widen (z : Complex Float32) : Complex Float := ⟨Binary.widen z.re, Binary.widen z.im⟩

end Complex

/-! ## Elements -/

/-- A type of array elements. -/
class Element (α : Type) where
  /-- The element type of an array of such values. -/
  dtype : DType
  /-- The components of a value, in double precision. -/
  toParts : α → Complex Float
  /-- The value nearest to given components. -/
  ofParts : Complex Float → α

instance : Element Float where
  dtype := .f64
  toParts x := ⟨x, 0⟩
  ofParts z := z.re

instance : Element Float32 where
  dtype := .f32
  toParts x := ⟨Binary.widen x, 0⟩
  ofParts z := Binary.narrow z.re

instance : Element Int32 where
  dtype := .i32
  toParts n := ⟨Binary.ofInt n.toInt, 0⟩
  ofParts z := .ofInt (Binary.toInt32 z.re)

instance : Element (Complex Float32) where
  dtype := .c64
  toParts := Complex.widen
  ofParts := Complex.narrow

instance : Element (Complex Float) where
  dtype := .c128
  toParts z := z
  ofParts z := z

end DenseNumeric
