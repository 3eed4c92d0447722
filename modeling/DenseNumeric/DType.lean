import DenseNumeric.Binary.Formats

/-!
# Element types

An array has one of five element types. Components are always held in double
precision; `DType.quantize` moves a component to the nearest value that the
element type has, and every stored component is such a value.
-/

namespace DenseNumeric

/-- The element types: real, integer and complex, by the width of a
component or, for complex numbers, of the pair. -/
inductive DType where
  | f64
  | f32
  | i32
  | c64
  | c128
deriving DecidableEq, Repr

namespace DType

/-! ## Names and kinds -/

/-- The numeric code of an element type in interchange. -/
def code : DType → Nat
  | f64 => 0
  | f32 => 1
  | i32 => 11
  | c64 => 40
  | c128 => 41

/-- The short name, as written after an array. -/
def shortName : DType → String
  | f64 => "f64"
  | f32 => "f32"
  | i32 => "i32"
  | c64 => "c64"
  | c128 => "c128"

/-- The long name, as written in messages. -/
def longName : DType → String
  | f64 => "F64"
  | f32 => "F32"
  | i32 => "I32"
  | c64 => "Complex64"
  | c128 => "Complex128"

def sizeInBytes : DType → Nat
  | c128 => 16
  | f64 | c64 => 8
  | f32 | i32 => 4

def isFloat : DType → Bool
  | f64 | f32 => true
  | _ => false

def isComplex : DType → Bool
  | c64 | c128 => true
  | _ => false

def isInteger : DType → Bool
  | i32 => true
  | _ => false

/-! ## Related types -/

/-- The type of either component of a complex type. -/
def component? : DType → Option DType
  | c64 => some f32
  | c128 => some f64
  | _ => none

/-- The complex type whose components hold the values of this one. -/
def complexCounterpart : DType → DType
  | f32 | c64 => c64
  | f64 | i32 | c128 => c128

/-- The type itself, or double precision for the integers. -/
def floatCounterpart : DType → DType
  | i32 => f64
  | d => d

/-- The order in which types give way to one another. -/
def rank : DType → Nat
  | i32 => 0
  | f32 => 1
  | f64 => 2
  | c64 => 3
  | c128 => 4

/-- The type of a result with operands of two types. With a complex operand
the result is complex, and narrow only if both operands are single precision;
otherwise it is the operand type of higher rank. -/
def promote (a b : DType) : DType :=
  if a.isComplex || b.isComplex then
    if a.complexCounterpart = c128 ∨ b.complexCounterpart = c128 then c128 else c64
  else if b.rank ≤ a.rank then a else b

/-! ## Precision -/

/-- The distance from one to the next larger component value. -/
def epsilon : DType → Float
  | f32 | c64 => Binary.widen Arith.epsilon
  | f64 | i32 | c128 => Arith.epsilon

/-- The component value nearest to `x`: unchanged, rounded to single
precision, or truncated into the 32-bit integers. -/
def quantize : DType → Float → Float
  | f64, x | c128, x => x
  | f32, x | c64, x => Binary.widen (Binary.narrow x)
  | i32, x => Binary.ofInt (Binary.toInt32 x)

end DType

end DenseNumeric
