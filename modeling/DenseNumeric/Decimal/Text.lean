import DenseNumeric.Decimal.Shortest

/-!
# The text of a number

Numbers are written positionally, with the fewest digits that read back, no
exponent and no point after an integer: `100`, `0.0001`, `-2.5`. A zero keeps
its sign. The values that are no numbers are `NaN`, `inf` and `-inf`.

Magnitudes in log records are written with four significant digits and an
exponent: `1.235e-7`.
-/

namespace DenseNumeric

open Float.Model (Format UnpackedFloat)
open Float.Model.UnpackedFloat (Sign)

namespace Decimal

/-- Digits with the point at its place. -/
def positional (d : Decimal) : List Char :=
  let digits := Nat.toDigits 10 d.digits
  let places := (-d.exponent).toNat
  if places = 0 then digits ++ List.replicate d.exponent.toNat '0'
  else if places < digits.length then
    digits.take (digits.length - places) ++ '.' :: digits.drop (digits.length - places)
  else '0' :: '.' :: List.replicate (places - digits.length) '0' ++ digits

/-- One digit before the point, the others after it, and the power of ten. -/
def scientific (d : Decimal) : List Char :=
  let digits := Nat.toDigits 10 d.digits
  let power := d.exponent + (digits.length - 1 : Nat)
  digits.take 1 ++ '.' :: digits.drop 1 ++ 'e' :: (toString power).toList

end Decimal

namespace Binary

def signText : Sign → List Char
  | .negative => ['-']
  | .positive => []

def text (fmt : Format) : UnpackedFloat → List Char
  | .notANumber => ['N', 'a', 'N']
  | .infinity s => signText s ++ ['i', 'n', 'f']
  | .zero s => signText s ++ ['0']
  | .finite s m e _ => signText s ++ (Decimal.shortest fmt m e).positional

/-- The text of a number with `p` digits after the point and an exponent. -/
def scientificText (p : Nat) : UnpackedFloat → List Char
  | .notANumber => ['N', 'a', 'N']
  | .infinity s => signText s ++ ['i', 'n', 'f']
  | .zero s => signText s ++ '0' :: '.' :: List.replicate p '0' ++ ['e', '0']
  | .finite s m e _ => signText s ++ (Decimal.significant p m e).scientific

end Binary

end DenseNumeric
