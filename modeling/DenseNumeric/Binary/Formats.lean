import DenseNumeric.Arith
import DenseNumeric.Binary.Rounding

/-!
# The two binary formats

`Float` and `Float32` as instances of `Arith`, the conversions between them,
and the conversion to and from integers. Core's arithmetic on both types is
defined by an exact result and one rounding; everything added here is too, so
no operation of the library is a black box to a proof.
-/

namespace DenseNumeric.Binary

/-! ## Conversions -/

/-- The nearest single-precision number, ties to even. -/
def narrow (x : Float) : Float32 :=
  .ofModel (.pack (roundTo .binary32 x.toModel.unpack))

def widen (x : Float32) : Float :=
  .ofModel (.pack (roundTo .binary64 x.toModel.unpack))

/-- The nearest double-precision number to an integer, never a negative zero. -/
def ofInt (n : Int) : Float :=
  .ofModel (.ofInt n)

/-- The 32-bit integer nearest to the integer part of `x`; zero for an
undefined `x`. -/
def toInt32 (x : Float) : Int :=
  truncate Int32.minValue.toInt Int32.maxValue.toInt x.toModel.unpack

/-! ## Arithmetic -/

instance : Arith Float where
  zero := 0
  one := 1
  natCast n := .ofNat n
  abs := Float.abs
  sqrt := Float.sqrt
  hypot x y := .ofModel (.pack (hypot .binary64 x.toModel.unpack y.toModel.unpack))
  sign x := if x == x then (if x.toBits >>> 63 == 1 then -1 else 1) else x
  isFinite := Float.isFinite
  epsilon := .ofBits 0x3CB0000000000000
  minPositive := .ofBits 0x0010000000000000
  decLt := Float.decLt
  decLe := Float.decLe

instance : Arith Float32 where
  zero := 0
  one := 1
  natCast n := .ofNat n
  abs := Float32.abs
  sqrt := Float32.sqrt
  hypot x y := .ofModel (.pack (hypot .binary32 x.toModel.unpack y.toModel.unpack))
  sign x := if x == x then (if x.toBits >>> 31 == 1 then -1 else 1) else x
  isFinite := Float32.isFinite
  epsilon := .ofBits 0x34000000
  minPositive := .ofBits 0x00800000
  decLt := Float32.decLt
  decLe := Float32.decLe

end DenseNumeric.Binary
