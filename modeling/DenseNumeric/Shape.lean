import DenseNumeric.Error

/-!
# Shapes

An array is a vector or a matrix. Elements are laid out row by row, and a
vector counts as one row.
-/

namespace DenseNumeric

inductive Shape where
  | vector (length : Nat)
  | matrix (rows cols : Nat)
deriving DecidableEq, Repr

namespace Shape

/-! ## Extents -/

def dims : Shape → List Nat
  | vector n => [n]
  | matrix m n => [m, n]

def rows : Shape → Nat
  | vector _ => 1
  | matrix m _ => m

def cols : Shape → Nat
  | vector n => n
  | matrix _ n => n

def ndim (s : Shape) : Nat := s.dims.length

def numel (s : Shape) : Nat := s.rows * s.cols

def isMatrix : Shape → Bool
  | vector _ => false
  | matrix _ _ => true

/-- The shape with given extents: one or two of them, none of them zero. -/
def ofDims (dims : List Nat) : Except Error Shape :=
  match dims with
  | [n] => if n = 0 then .error (.invalidArgument (.emptyExtent dims)) else .ok (.vector n)
  | [m, n] =>
    if m = 0 ∨ n = 0 then .error (.invalidArgument (.emptyExtent dims)) else .ok (.matrix m n)
  | _ => .error (.invalidArgument (.rank dims.length))

/-! ## Layout -/

/-- The place of an element among all elements. -/
def offset (s : Shape) (row col : Nat) : Nat := row * s.cols + col

/-- The values of a function of row and column, in layout order. -/
def tabulate {α : Type} (s : Shape) (f : Nat → Nat → α) : Array α :=
  .ofFn fun k : Fin s.numel => f (k / s.cols) (k % s.cols)

theorem offset_lt_numel {s : Shape} {i j : Nat} (hi : i < s.rows) (hj : j < s.cols) :
    s.offset i j < s.numel := by
  have := Nat.mul_le_mul_right s.cols hi
  rw [Nat.succ_mul] at this
  simp only [offset, numel]
  omega

@[simp] theorem size_tabulate {α : Type} (s : Shape) (f : Nat → Nat → α) :
    (s.tabulate f).size = s.numel := by
  simp [tabulate]

theorem offset_div_cols {s : Shape} {j : Nat} (i : Nat) (hj : j < s.cols) :
    s.offset i j / s.cols = i := by
  have hcols : 0 < s.cols := by omega
  rw [offset, Nat.mul_comm, Nat.mul_add_div hcols, Nat.div_eq_of_lt hj, Nat.add_zero]

theorem offset_mod_cols {s : Shape} {j : Nat} (i : Nat) (hj : j < s.cols) :
    s.offset i j % s.cols = j := by
  rw [offset, Nat.mul_comm, Nat.mul_add_mod, Nat.mod_eq_of_lt hj]

theorem getD_tabulate {α : Type} {s : Shape} {i j : Nat} (hi : i < s.rows) (hj : j < s.cols)
    (f : Nat → Nat → α) (x : α) : (s.tabulate f).getD (s.offset i j) x = f i j := by
  simp [tabulate, Array.getD, offset_lt_numel hi hj, offset_div_cols i hj, offset_mod_cols i hj]

/-! ## Text -/

/-- The text of a shape: `(5,)` or `(2, 3)`. -/
def text : Shape → String
  | vector n => "(" ++ toString n ++ ",)"
  | matrix m n => "(" ++ toString m ++ ", " ++ toString n ++ ")"

end Shape

end DenseNumeric
