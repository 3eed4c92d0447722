import DenseNumeric.Arith

/-!
# Complex numbers over any real arithmetic

Sums, differences and products are the schoolbook ones. A quotient divides
the divisor by its taxicab length first, so that squares of its parts neither
overflow nor vanish. The square root is the principal one, by the half-angle
formulas.
-/

namespace DenseNumeric

/-- A complex number as a pair of parts. -/
@[ext]
structure Complex (R : Type) where
  re : R
  im : R
deriving DecidableEq

namespace Complex

variable {R : Type} [Arith R]

/-! ## Constants and arithmetic -/

def ofReal (x : R) : Complex R := ⟨x, 0⟩

def i : Complex R := ⟨0, 1⟩

instance : Zero (Complex R) := ⟨⟨0, 0⟩⟩
instance : One (Complex R) := ⟨⟨1, 0⟩⟩
instance : Inhabited (Complex R) := ⟨⟨default, default⟩⟩

instance : Add (Complex R) := ⟨fun z w => ⟨z.re + w.re, z.im + w.im⟩⟩
instance : Sub (Complex R) := ⟨fun z w => ⟨z.re - w.re, z.im - w.im⟩⟩
instance : Neg (Complex R) := ⟨fun z => ⟨-z.re, -z.im⟩⟩

instance : Mul (Complex R) :=
  ⟨fun z w => ⟨z.re * w.re - z.im * w.im, z.re * w.im + z.im * w.re⟩⟩

/-- Both parts are equal as numbers: zeros of either sign agree, and an
undefined part agrees with nothing. -/
instance : BEq (Complex R) := ⟨fun z w => z.re == w.re && z.im == w.im⟩

def conj (z : Complex R) : Complex R := ⟨z.re, -z.im⟩

def scale (z : Complex R) (x : R) : Complex R := ⟨z.re * x, z.im * x⟩

def divReal (z : Complex R) (x : R) : Complex R := ⟨z.re / x, z.im / x⟩

/-! ## Lengths -/

def magnitude (z : Complex R) : R := Arith.hypot z.re z.im

def magnitudeSq (z : Complex R) : R := z.re * z.re + z.im * z.im

/-- The taxicab length, which needs no square root. -/
def taxicab (z : Complex R) : R := Arith.abs z.re + Arith.abs z.im

def isZero (z : Complex R) : Bool := z.re == 0 && z.im == 0

def isFinite (z : Complex R) : Bool := Arith.isFinite z.re && Arith.isFinite z.im

/-! ## Quotients and square roots -/

/-- The quotient. The divisor is scaled by its taxicab length, which is
divided out of the denominator; over a zero divisor both parts are `0 / 0`. -/
instance : Div (Complex R) where
  div z w :=
    let s := w.taxicab
    if s == 0 then ⟨0 / 0, 0 / 0⟩
    else
      let c := w.re / s
      let d := w.im / s
      let denominator := (c * c + d * d) * s
      ⟨(z.re * c + z.im * d) / denominator, (z.im * c - z.re * d) / denominator⟩

/-- The principal square root: its real part is not negative, and its
imaginary part has the sign of the argument's. -/
def sqrt (z : Complex R) : Complex R :=
  let length := z.magnitude
  if length == 0 then 0
  else
    let two : R := (2 : Nat)
    ⟨Arith.sqrt ((length + z.re) / two), Arith.sign z.im * Arith.sqrt ((length - z.re) / two)⟩

/-! ## Order and text -/

/-- The order of the Euclidean lengths, if both are defined. -/
def compareMagnitude? (z w : Complex R) : Option Ordering :=
  let x := z.magnitude
  let y := w.magnitude
  if x < y then some .lt
  else if x == y then some .eq
  else if y < x then some .gt
  else none

/-- The text of a complex number, given the texts of its parts. A plus sign
separates the parts unless the imaginary part is below zero, or undefined. -/
def text (part : R → List Char) (z : Complex R) : List Char :=
  if 0 ≤ z.im then part z.re ++ '+' :: part z.im ++ ['i']
  else part z.re ++ part z.im ++ ['i']

/-! ## Parts of sums, differences and products -/

@[simp] theorem re_zero : (0 : Complex R).re = 0 := rfl
@[simp] theorem im_zero : (0 : Complex R).im = 0 := rfl
@[simp] theorem re_one : (1 : Complex R).re = 1 := rfl
@[simp] theorem im_one : (1 : Complex R).im = 0 := rfl
@[simp] theorem re_add (z w : Complex R) : (z + w).re = z.re + w.re := rfl
@[simp] theorem im_add (z w : Complex R) : (z + w).im = z.im + w.im := rfl
@[simp] theorem re_sub (z w : Complex R) : (z - w).re = z.re - w.re := rfl
@[simp] theorem im_sub (z w : Complex R) : (z - w).im = z.im - w.im := rfl
@[simp] theorem re_neg (z : Complex R) : (-z).re = -z.re := rfl
@[simp] theorem im_neg (z : Complex R) : (-z).im = -z.im := rfl
@[simp] theorem re_conj (z : Complex R) : z.conj.re = z.re := rfl
@[simp] theorem im_conj (z : Complex R) : z.conj.im = -z.im := rfl

@[simp] theorem re_mul (z w : Complex R) : (z * w).re = z.re * w.re - z.im * w.im := rfl
@[simp] theorem im_mul (z w : Complex R) : (z * w).im = z.re * w.im + z.im * w.re := rfl

end Complex

end DenseNumeric
