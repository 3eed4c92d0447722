import DenseNumeric.DenseMatrix

/-!
# Eigenvectors of a triangular matrix

The eigenvector for a diagonal entry has a one there, and its other entries
follow one by one by substitution. Each is divided by a difference of diagonal
entries, which is kept away from zero, so repeated eigenvalues have vectors
too. Whenever an entry grows large the whole vector is scaled down.
-/

namespace DenseNumeric

variable {R : Type} [Arith R] {n : Nat}

/-! ## Substitution -/

/-- The smallest difference of eigenvalues of an `n × n` matrix that is
divided by. -/
def smallestGap (n : Nat) : R :=
  Arith.minPositive * ((n : R) / Arith.epsilon)

/-- The difference `d - s` of two eigenvalues, or a small positive number in
its place if it is smaller than that. -/
def gap (n : Nat) (d s : Complex R) : Complex R :=
  let least := Arith.larger (Arith.epsilon * s.magnitude) (smallestGap n)
  let difference := d - s
  if difference.magnitude < least then .ofReal least else difference

/-- The entries found so far, and the largest length among those found since
they were last scaled down. -/
structure Partial (R : Type) where
  entries : List (Complex R)
  growth : R

namespace Partial

/-- The entry at the eigenvalue itself. -/
def start : Partial R := ⟨[1], 1⟩

/-- All entries divided by the largest length. -/
def scaleDown (p : Partial R) : Partial R :=
  ⟨p.entries.map (·.divReal p.growth), 1⟩

/-- Takes in new entries, the latest of which is `x`; scaled down once `x` is
larger than the inverse root of the rounding unit. -/
def extend (p : Partial R) (entries : List (Complex R)) (x : Complex R) : Partial R :=
  let p := ⟨entries, Arith.larger p.growth x.magnitude⟩
  if 1 / Arith.sqrt Arith.epsilon < p.growth then p.scaleDown else p

/-- The entries, scaled down for the last time. -/
def finish (p : Partial R) : List (Complex R) :=
  if p.growth == 1 then p.entries else p.scaleDown.entries

end Partial

/-! ## Right and left eigenvectors -/

namespace DenseMatrix

/-- Entries `0, …, i` of the right eigenvector for diagonal entry `i`, found
upward from the last one. -/
def rightEigenvector (t : DenseMatrix n n (Complex R)) (i : Nat) : List (Complex R) :=
  let step (p : Partial R) (j : Nat) : Partial R :=
    let r := Arith.sumOver (p.entries.zipIdx (j + 1)) fun (x, k) => t j k * x
    let x := -r / gap n (t j j) (t i i)
    p.extend (x :: p.entries) x
  ((List.range i).reverse.foldl step .start).finish

/-- Entries `i, …, n - 1` of the left eigenvector for diagonal entry `i`,
found downward from the first one. -/
def leftEigenvector (t : DenseMatrix n n (Complex R)) (i : Nat) : List (Complex R) :=
  let step (p : Partial R) (j : Nat) : Partial R :=
    let r := Arith.sumOver (p.entries.zipIdx i) fun (x, k) => x * t k j
    let x := -r / gap n (t j j) (t i i)
    p.extend (p.entries ++ [x]) x
  ((List.range' (i + 1) (n - 1 - i)).foldl step .start).finish

/-- The right eigenvectors as columns. -/
def rightEigenvectors (t : DenseMatrix n n (Complex R)) : DenseMatrix n n (Complex R) :=
  let vectors : Vector (List (Complex R)) n := .ofFn fun i => t.rightEigenvector i
  ofFn fun k i => (vectors.getD i []).getD k 0

/-- The left eigenvectors as rows. -/
def leftEigenvectors (t : DenseMatrix n n (Complex R)) : DenseMatrix n n (Complex R) :=
  let vectors : Vector (List (Complex R)) n := .ofFn fun i => t.leftEigenvector i
  ofFn fun i k => if i ≤ k then (vectors.getD i []).getD (k - i) 0 else 0

end DenseMatrix

end DenseNumeric
