/-!
# Rounding in binary formats

A number of a binary format, taken apart, is a sign, a natural significand
and a power of two. On numbers in that form this module has the three
roundings that the numeric types need beyond `+ - * /` and the square root:

* `roundTo`, the nearest number of another format, ties to even;
* `hypot`, the correctly rounded length of a hypotenuse. The sum of the
  squares is formed exactly, so no intermediate result overflows,
  underflows or is rounded;
* `truncate`, the integer part, kept inside an interval.
-/

namespace DenseNumeric.Binary

open Float.Model (Format UnpackedFloat)
open Float.Model.UnpackedFloat (Accuracy sqrtCore roundWithAccuracy)

/-- The number of format `fmt` nearest to `x`, ties to even. -/
def roundTo (fmt : Format) (x : UnpackedFloat) : UnpackedFloat :=
  match x with
  | .finite s m e _ => .round fmt s m e
  | .infinity s => .infinity s
  | .zero s => .zero s
  | .notANumber => .notANumber

/-- The length of the hypotenuse over legs `x` and `y`, rounded once. An
infinite leg has an infinite hypotenuse, whatever the other leg is. -/
def hypot (fmt : Format) (x y : UnpackedFloat) : UnpackedFloat :=
  match x, y with
  | .infinity _, _ => .infinity .positive
  | _, .infinity _ => .infinity .positive
  | .notANumber, _ => .notANumber
  | _, .notANumber => .notANumber
  | .zero _, y => y.abs
  | x, .zero _ => x.abs
  | .finite _ m e _, .finite _ m' e' _ =>
    let low := min e e'
    let leg := m <<< (e - low).toNat
    let leg' := m' <<< (e' - low).toNat
    let (root, exponent, accuracy) := sqrtCore fmt (leg * leg + leg' * leg') (2 * low)
    roundWithAccuracy fmt .positive root exponent accuracy

/-- The integer part of `x` toward zero, moved to the nearer end of
`lo .. hi` when it lies outside; zero for an undefined `x`. -/
def truncate (lo hi : Int) (x : UnpackedFloat) : Int :=
  max lo (min hi (x.toInt lo hi))

end DenseNumeric.Binary
