import DenseNumeric.DenseMatrix

/-!
# Rotations

A plane rotation acts on two neighbouring coordinates. Applied as a
similarity, it combines two rows and then the same two columns. Where parts
of the matrix are known to be zero the rotation is applied to the others
only, so rows and columns are rotated within bounds.

A matrix under iteration carries the basis it is expressed in, if that is
wanted: then what is done to the columns of the matrix is done to those of
the basis.
-/

namespace DenseNumeric

variable {R : Type} [Arith R] {n : Nat}

/-! ## A single rotation -/

/-- The rotation with cosine `c` and sine `s`, and the length of the pair
that it was made from. -/
structure Rotation (R : Type) where
  c : Complex R
  s : Complex R
  length : R

namespace Rotation

/-- The rotation that moves `(x, y)` onto its first coordinate; for two zeros
it does nothing. -/
def ofPair (x y : Complex R) : Rotation R :=
  let length := Arith.hypot x.magnitude y.magnitude
  if length == 0 then ⟨1, 0, 0⟩ else ⟨x.divReal length, y.divReal length, length⟩

/-- Combines rows `r` and `r + 1`, from column `first` on. -/
def rotateRows (g : Rotation R) (r first : Nat) (a : DenseMatrix n n (Complex R)) :
    DenseMatrix n n (Complex R) :=
  .ofFn fun i k =>
    if first ≤ k then
      let x := a r k
      let y := a (r + 1) k
      if i = r then g.c.conj * x + g.s.conj * y
      else if i = r + 1 then g.c * y - g.s * x
      else a i k
    else a i k

/-- Combines columns `r` and `r + 1`, in the rows before `last`. -/
def rotateCols (g : Rotation R) (r last : Nat) (a : DenseMatrix n n (Complex R)) :
    DenseMatrix n n (Complex R) :=
  .ofFn fun k j =>
    if k < last then
      let x := a k r
      let y := a k (r + 1)
      if j = r then g.c * x + g.s * y
      else if j = r + 1 then g.c.conj * y - g.s.conj * x
      else a k j
    else a k j

end Rotation

/-! ## A matrix with its basis -/

/-- A square matrix, and the columns of the basis it is expressed in. -/
structure Similar (n : Nat) (R : Type) where
  matrix : DenseMatrix n n (Complex R)
  basis : Option (DenseMatrix n n (Complex R))

namespace Similar

/-- A rotation of coordinates `r` and `r + 1` in the block that ends before
`high`: of the rows from column `r` on, and of the columns down to the bulge
that this makes below the subdiagonal. -/
def rotate (p : Similar n R) (g : Rotation R) (r high : Nat) : Similar n R where
  matrix := g.rotateCols r (min high (r + 3)) (g.rotateRows r r p.matrix)
  basis := p.basis.map (g.rotateCols r n)

/-- Moves the bulge in column `j` one place down: the entry below the
subdiagonal is rotated away, and another appears in the next column. -/
def chase (high : Nat) (p : Similar n R) (j : Nat) : Similar n R :=
  let a := p.matrix
  let g := Rotation.ofPair (a (j + 1) j) (a (j + 2) j)
  let a := (a.set (j + 1) j ⟨g.length, 0⟩).set (j + 2) j 0
  { p with matrix := a }.rotate g (j + 1) high

/-- One sweep over the block from `low` to before `high`: a rotation that
brings in the shift, and the chase of the bulge that it makes. -/
def sweep (p : Similar n R) (low high : Nat) (shift : Complex R) : Similar n R :=
  let g := Rotation.ofPair (p.matrix low low - shift) (p.matrix (low + 1) low)
  (List.range' low (high - 2 - low)).foldl (chase high) (p.rotate g low high)

end Similar

end DenseNumeric
