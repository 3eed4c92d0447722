/-!
# Real arithmetic, without laws

The algorithms of this library are written once, over any type that has the
operations of `Arith`. No law is asked for: `+` may round, `<` may be false
both ways, `hypot` may lose the last bit. Two readings matter. Over binary
floating point the algorithms run, and a statement proved for every instance
holds whatever the rounding does. Over an exact field with a square root the
same definitions are the textbook algorithms, and a statement about
eigenvalues is about eigenvalues.
-/

namespace DenseNumeric

/-- The operations on reals that the algorithms use. The default value is what
a read outside a matrix gives; no algorithm makes use of it. -/
class Arith (R : Type) extends Inhabited R, Zero R, One R, Add R, Sub R, Mul R, Div R, Neg R,
    NatCast R, BEq R, LT R, LE R where
  abs : R → R
  sqrt : R → R
  /-- The length of the hypotenuse over two legs. -/
  hypot : R → R → R
  /-- One with the sign of the argument; a zero counts with its own sign. -/
  sign : R → R
  /-- Neither an infinity nor an undefined value. -/
  isFinite : R → Bool
  /-- The distance from one to the next larger number of the format. -/
  epsilon : R
  /-- The smallest positive number with a full significand. -/
  minPositive : R
  decLt : DecidableLT R
  decLe : DecidableLE R

attribute [reducible, instance] Arith.decLt Arith.decLe

namespace Arith

variable {R : Type} [Arith R]

/-- The larger of two numbers; an undefined operand is ignored. -/
def larger (x y : R) : R :=
  if x < y then y else if x == x then x else y

/-- The sum of `f x` over a list, from the left, starting at zero. -/
def sumOver {α E : Type} [Zero E] [Add E] (xs : List α) (f : α → E) : E :=
  xs.foldl (fun acc x => acc + f x) 0

/-- The largest of `f x` over a list, no smaller than zero. -/
def largestOver {α : Type} (xs : List α) (f : α → R) : R :=
  xs.foldl (fun acc x => larger acc (f x)) 0

end Arith

end DenseNumeric
