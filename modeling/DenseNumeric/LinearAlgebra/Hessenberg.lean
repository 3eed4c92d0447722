import DenseNumeric.DenseMatrix

/-!
# Reduction to Hessenberg form

A square matrix is brought to a unitarily similar one with zeros below its
first subdiagonal. Row by row from the bottom, a reflection of the leading
coordinates moves the part of the row left of the diagonal onto its last
entry. A reflection is kept as a vector `v` of squared length two, and stands
for the unitary `1 - v̄ vᵀ` on columns; products are formed without ever
building it.
-/

namespace DenseNumeric

variable {R : Type} [Arith R] {n : Nat}

/-! ## Reflections -/

/-- A reflection of the first `order` coordinates. -/
structure Reflection (R : Type) where
  order : Nat
  vector : Array (Complex R)

namespace Reflection

def coordinate (v : Reflection R) (k : Nat) : Complex R := v.vector.getD k default

/-- The sum of `f` over the coordinates, starting with the last one. -/
def sum (v : Reflection R) (f : Nat → Complex R) : Complex R :=
  (List.range (v.order - 1)).foldl (fun acc k => acc + f k) (f (v.order - 1))

/-- Multiplication from the right: a multiple of `v` is subtracted from each
of the first `order` rows. -/
def applyRight (v : Reflection R) (a : DenseMatrix n n (Complex R)) :
    DenseMatrix n n (Complex R) :=
  let factors : Vector (Complex R) n :=
    .ofFn fun j => v.sum fun k => (v.coordinate k).conj * a j k
  .ofFn fun j k =>
    if j < v.order ∧ k < v.order then a j k - factors.getD j default * v.coordinate k else a j k

/-- Multiplication from the left: a multiple of the conjugate of `v` is
subtracted from each of the first `cols` columns. -/
def applyLeft (v : Reflection R) (cols : Nat) (a : DenseMatrix n n (Complex R)) :
    DenseMatrix n n (Complex R) :=
  let factors : Vector (Complex R) n :=
    .ofFn fun j => v.sum fun k => v.coordinate k * a k j
  .ofFn fun k j =>
    if k < v.order ∧ j < cols then a k j - factors.getD j default * (v.coordinate k).conj else a k j

/-- The reflection that moves the vector `row k`, `k < order`, onto its last
coordinate, and the value there afterwards. The vector is first scaled by the
sum of the taxicab lengths of its coordinates; there is no reflection if that
is zero, undefined, or too small to divide by. -/
def ofRow? (order : Nat) (row : Nat → Complex R) : Option (Reflection R × Complex R) :=
  let scale := Arith.sumOver (List.range order) fun k => (row k).taxicab
  let unscale := 1 / scale
  if scale == 0 || !Arith.isFinite unscale then none
  else
    let scaled := fun k => (row k).scale unscale
    let square := Arith.sumOver (List.range order) fun k => (scaled k).magnitudeSq
    let last := scaled (order - 1)
    let lastLength := last.magnitude
    let length := Arith.sqrt square
    let image : Complex R := ⟨-length * scale, 0⟩
    let phase := last.divReal lastLength
    let turn := !(lastLength == 0)
    let head := if turn then last + phase.scale length else ⟨length, 0⟩
    let shrink := 1 / Arith.sqrt (square + length * lastLength)
    let vector := (Array.range (order - 1)).map fun k => (scaled k).scale shrink
    some (⟨order, vector.push (head.scale shrink)⟩, if turn then image * phase else image)

end Reflection

/-! ## The reduction -/

/-- A matrix on its way to Hessenberg form, and the reflections so far, the
latest first. -/
structure Reduction (n : Nat) (R : Type) where
  matrix : DenseMatrix n n (Complex R)
  reflections : List (Reflection R)

namespace Reduction

/-- Clears row `i` left of its subdiagonal entry. A row that has no
reflection is cleared together with that entry. -/
def clearRow (r : Reduction n R) (i : Nat) : Reduction n R :=
  let a := r.matrix
  let withRow (x : Complex R) : DenseMatrix n n (Complex R) :=
    .ofFn fun j k => if j = i ∧ k < i then (if k + 1 = i then x else 0) else a j k
  match Reflection.ofRow? i (a i) with
  | none => { r with matrix := withRow 0 }
  | some (v, x) => ⟨v.applyLeft n (v.applyRight (withRow x)), v :: r.reflections⟩

/-- The reduction of all rows, from the bottom. -/
def ofMatrix (a : DenseMatrix n n (Complex R)) : Reduction n R :=
  (List.range' 2 (n - 2)).reverse.foldl clearRow ⟨a, []⟩

/-- The product of the reflections. Those of the upper rows, which reflect
fewer coordinates, are applied to the identity first. -/
def basis (r : Reduction n R) : DenseMatrix n n (Complex R) :=
  r.reflections.foldl (fun q v => v.applyLeft v.order q) .identity

end Reduction

end DenseNumeric
