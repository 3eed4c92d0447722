import DenseNumeric.Complex

/-!
# Working matrices

The matrices that the decompositions compute with: rows of a fixed length,
every entry evaluated once when the matrix is built. `a i j` is an entry of
`a`, and the default value where `a` has no entry. A step of an algorithm is
written as the matrix it leads to, entry by entry from the matrix before.
-/

namespace DenseNumeric

structure DenseMatrix (m n : Nat) (E : Type) where
  rows : Vector (Vector E n) m
deriving DecidableEq

namespace DenseMatrix

variable {m n : Nat} {E : Type}

/-! ## Entries -/

def ofFn (f : Nat → Nat → E) : DenseMatrix m n E :=
  ⟨.ofFn fun i => .ofFn fun j => f i j⟩

/-- An entry, or the default value outside the matrix. -/
def get [Inhabited E] (a : DenseMatrix m n E) (i j : Nat) : E :=
  if _ : i < m ∧ j < n then a.rows[i][j] else default

instance [Inhabited E] : CoeFun (DenseMatrix m n E) fun _ => Nat → Nat → E := ⟨get⟩

theorem get_ofFn [Inhabited E] (f : Nat → Nat → E) (i j : Nat) :
    (ofFn f : DenseMatrix m n E) i j = if i < m ∧ j < n then f i j else default := by
  by_cases h : i < m ∧ j < n <;> simp [get, ofFn, h]

theorem get_of_not [Inhabited E] {a : DenseMatrix m n E} {i j : Nat} (h : ¬(i < m ∧ j < n)) :
    a i j = default := dif_neg h

/-- Only the entries of a matrix matter. -/
theorem ofFn_congr {f g : Nat → Nat → E} (h : ∀ i j, i < m → j < n → f i j = g i j) :
    (ofFn f : DenseMatrix m n E) = ofFn g :=
  congrArg (mk <| Vector.ofFn ·) (funext fun i => congrArg Vector.ofFn (funext fun j =>
    h i j i.isLt j.isLt))

theorem ext_of_get [Inhabited E] {a b : DenseMatrix m n E}
    (h : ∀ i j, i < m → j < n → a i j = b i j) : a = b := by
  obtain ⟨rows⟩ := a
  obtain ⟨rows'⟩ := b
  congr 1
  ext i hi j hj
  simpa [get, hi, hj] using h i j hi hj

def set [Inhabited E] (a : DenseMatrix m n E) (i j : Nat) (x : E) : DenseMatrix m n E :=
  ofFn fun i' j' => if i' = i ∧ j' = j then x else a i' j'

theorem get_set [Inhabited E] (a : DenseMatrix m n E) (i j : Nat) (x : E) {i' j' : Nat}
    (hi : i' < m) (hj : j' < n) :
    (a.set i j x) i' j' = if i' = i ∧ j' = j then x else a i' j' := by
  rw [set, get_ofFn, if_pos ⟨hi, hj⟩]

def swapRows [Inhabited E] (a : DenseMatrix m n E) (r s : Nat) : DenseMatrix m n E :=
  ofFn fun i j => a (if i = r then s else if i = s then r else i) j

/-- All entries, row by row. -/
def entries (a : DenseMatrix m n E) : List E :=
  a.rows.toList.flatMap Vector.toList

def diagonal [Inhabited E] (a : DenseMatrix n n E) : List E :=
  (List.range n).map fun i => a i i

theorem length_diagonal [Inhabited E] (a : DenseMatrix n n E) : a.diagonal.length = n := by
  rw [diagonal, List.length_map, List.length_range]

/-! ## Square matrices -/

def identity [Zero E] [One E] : DenseMatrix n n E :=
  ofFn fun i j => if i = j then 1 else 0

theorem get_identity [Inhabited E] [Zero E] [One E] {i j : Nat} (hi : i < n) (hj : j < n) :
    (identity : DenseMatrix n n E) i j = if i = j then 1 else 0 := by
  rw [identity, get_ofFn, if_pos ⟨hi, hj⟩]

variable {R : Type} [Arith R]

def adjoint (a : DenseMatrix n n (Complex R)) : DenseMatrix n n (Complex R) :=
  ofFn fun i j => (a j i).conj

/-- The product. Terms with a zero in the left factor are left out. -/
def mul (a b : DenseMatrix n n (Complex R)) : DenseMatrix n n (Complex R) :=
  ofFn fun i j => (List.range n).foldl
    (fun acc k => if (a i k).isZero then acc else acc + a i k * b k j) 0

/-! ## Lengths -/

/-- The Euclidean length of a list of complex numbers, with no square formed. -/
def lengthOf (zs : List (Complex R)) : R :=
  zs.foldl (fun acc z => Arith.hypot acc z.magnitude) 0

/-- Every column divided by its length, unless that is zero or undefined. -/
def normalizeColumns (a : DenseMatrix n n (Complex R)) : DenseMatrix n n (Complex R) :=
  let lengths : Vector R n := .ofFn fun j => lengthOf ((List.range n).map (a · j))
  ofFn fun i j =>
    let length := lengths.getD j default
    if 0 < length then (a i j).divReal length else a i j

/-- Every row divided by its length, unless that is zero or undefined. -/
def normalizeRows (a : DenseMatrix n n (Complex R)) : DenseMatrix n n (Complex R) :=
  let lengths : Vector R n := .ofFn fun i => lengthOf ((List.range n).map (a i))
  ofFn fun i j =>
    let length := lengths.getD i default
    if 0 < length then (a i j).divReal length else a i j

end DenseMatrix

end DenseNumeric
