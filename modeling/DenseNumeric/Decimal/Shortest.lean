/-!
# Decimals that stand for binary numbers

A positive number `m * 2 ^ e` of a binary format is shown by a decimal
`digits * 10 ^ exponent`. There are two ways to choose it:

* `shortest` is the decimal with the fewest digits that reads back as the
  number, and of those the nearest one. The decimals with a given last place
  form a grid, and if any point of a grid reads back, so does one of the two
  neighbours of the number on it: so the coarsest grid with such a neighbour
  is looked for, from above.
* `significant` is the nearest decimal with a given number of digits.

Both work with exact rationals.
-/

namespace DenseNumeric

open Float.Model (Format totalExponent)

/-- A decimal number `digits * 10 ^ exponent`. -/
structure Decimal where
  digits : Nat
  exponent : Int
deriving DecidableEq

namespace Decimal

def toRat (d : Decimal) : Rat :=
  d.digits * 10 ^ d.exponent

/-! ## Intervals of decimals -/

/-- The reals between two ends, the ends included or not. -/
structure Interval where
  lower : Rat
  upper : Rat
  closed : Bool

def Interval.contains (i : Interval) (x : Rat) : Bool :=
  if i.closed then i.lower ≤ x && x ≤ i.upper else i.lower < x && x < i.upper

/-- The reals that round to `m * 2 ^ e` in the format: those up to half the
way to either neighbour. The neighbour below a power of two is half as far
away as the one above. Ties go to an even significand, which therefore
includes its ends. -/
def readsBack (fmt : Format) (m : Nat) (e : Int) : Interval :=
  let below : Rat :=
    if m = Nat.pow 2 fmt.mantissaBitsWithoutImplicit ∧ fmt.minExponent < e then 1 / 4 else 1 / 2
  { lower := (m - below) * 2 ^ e
    upper := (m + 1 / 2) * 2 ^ e
    closed := m % 2 = 0 }

/-! ## Choosing the decimal -/

/-- The neighbour of `v` on the grid of multiples of `10 ^ k` that lies in
the interval; the nearer one if both do, and the upper one if `v` is halfway
between them. -/
def neighbour? (v : Rat) (i : Interval) (k : Int) : Option Decimal :=
  let scaled := v / 10 ^ k
  let below := scaled.floor.toNat
  let ends := if scaled - below < 1 / 2 then [below, below + 1] else [below + 1, below]
  (ends.map (⟨·, k⟩)).find? fun d => i.contains d.toRat

/-- A power of ten above `m * 2 ^ e`, and less than four places above it. -/
def placeAbove (m : Nat) (e : Int) : Int :=
  totalExponent m e * 30103 / 100000 + 2

def exact (m : Nat) (e : Int) : Decimal :=
  if 0 ≤ e then ⟨m * Nat.pow 2 e.toNat, 0⟩ else ⟨m * Nat.pow 5 (-e).toNat, e⟩

/-- The decimal with the fewest digits that reads back as `m * 2 ^ e`. -/
def shortest (fmt : Format) (m : Nat) (e : Int) : Decimal :=
  let v : Rat := m * 2 ^ e
  let interval := readsBack fmt m e
  let top := placeAbove m e
  ((List.range 24).findSome? fun (i : Nat) => neighbour? v interval (top - i)).getD (exact m e)

def nearestEven (x : Rat) : Nat :=
  let below := x.floor.toNat
  let rest := x - below
  if rest < 1 / 2 then below
  else if rest = 1 / 2 then below + below % 2
  else below + 1

/-- The decimal with `p + 1` digits nearest to `m * 2 ^ e`, ties to even. -/
def significant (p : Nat) (m : Nat) (e : Int) : Decimal :=
  let v : Rat := m * 2 ^ e
  let top := placeAbove m e
  let lead := ((List.range 6).map fun (i : Nat) => top - i).find? (fun k => (10 : Rat) ^ k ≤ v)
    |>.getD 0
  let digits := nearestEven (v / 10 ^ (lead - p))
  if digits < Nat.pow 10 (p + 1) then ⟨digits, lead - p⟩ else ⟨Nat.pow 10 p, lead - p + 1⟩

end Decimal

end DenseNumeric
