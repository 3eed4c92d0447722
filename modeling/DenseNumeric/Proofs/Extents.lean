import DenseNumeric.Proofs.Elements

/-!
# Arrays along an axis

Stacking and splitting treat the two axes alike, although the elements lie row
by row. So an array is also seen from one of its axes: it has an extent along
the axis and one across it, and an element has a place along the axis and one
across it. Transposition exchanges the axes and nothing else.

A shape is changed along one axis by `Shape.withExtent`. It keeps the extent
across the axis and, for columns, also the rank: a vector may have more or
fewer elements and is still a vector, but with more rows it is a matrix.
-/

namespace DenseNumeric

/-- The axis across this one. -/
def Axis.other : Axis → Axis
  | .rows => .cols
  | .cols => .rows

@[simp] theorem Axis.other_other (axis : Axis) : axis.other.other = axis := by
  cases axis <;> rfl

/-! ## Shapes -/

namespace Shape

variable {s t : Shape} {axis : Axis}

def extent (s : Shape) : Axis → Nat
  | .rows => s.rows
  | .cols => s.cols

def withExtent (s : Shape) (axis : Axis) (n : Nat) : Shape :=
  match axis, s with
  | .rows, s => .matrix n s.cols
  | .cols, .vector _ => .vector n
  | .cols, .matrix m _ => .matrix m n

@[simp] theorem extent_withExtent (s : Shape) (axis : Axis) (n : Nat) :
    (s.withExtent axis n).extent axis = n := by
  cases axis <;> cases s <;> rfl

@[simp] theorem extent_other_withExtent (s : Shape) (axis : Axis) (n : Nat) :
    (s.withExtent axis n).extent axis.other = s.extent axis.other := by
  cases axis <;> cases s <;> rfl

@[simp] theorem withExtent_withExtent (s : Shape) (axis : Axis) (m n : Nat) :
    (s.withExtent axis m).withExtent axis n = s.withExtent axis n := by
  cases axis <;> cases s <;> rfl

@[simp] theorem isMatrix_withExtent (s : Shape) (axis : Axis) (n : Nat) :
    (s.withExtent axis n).isMatrix = (decide (axis = .rows) || s.isMatrix) := by
  cases axis <;> cases s <;> rfl

theorem withExtent_extent (h : axis = .rows → s.isMatrix = true) :
    s.withExtent axis (s.extent axis) = s := by
  cases axis with
  | rows =>
      cases s with
      | vector n => cases h rfl
      | matrix m n => rfl
  | cols => cases s <;> rfl

theorem withExtent_rows_eq_iff {n : Nat} :
    s.withExtent .rows n = t.withExtent .rows n ↔ s.cols = t.cols := by
  simp [withExtent]

theorem withExtent_cols_eq_iff {n : Nat} :
    s.withExtent .cols n = t.withExtent .cols n ↔ s.ndim = t.ndim ∧ s.rows = t.rows := by
  cases s <;> cases t <;> simp [withExtent, ndim, dims, rows]

theorem isPositive_iff_extent (axis : Axis) :
    s.IsPositive ↔ 0 < s.extent axis ∧ 0 < s.extent axis.other := by
  cases axis with
  | rows => exact Iff.rfl
  | cols => exact and_comm

theorem eq_matrix_of_isMatrix (h : s.isMatrix = true) : s = .matrix s.rows s.cols := by
  cases s with
  | vector n => cases h
  | matrix m n => rfl

end Shape

/-! ## Arrays -/

namespace NumArray

variable {a b : NumArray} {axis : Axis} {k l : Nat}

def extent (a : NumArray) (axis : Axis) : Nat := a.shape.extent axis

/-- The element at place `k` along an axis and place `l` across it. -/
def entryOn (a : NumArray) (axis : Axis) (k l : Nat) : Complex Float :=
  match axis with
  | .rows => a.entry k l
  | .cols => a.entry l k

theorem ext_of_entryOn (axis : Axis) (ha : a.IsValid) (hb : b.IsValid) (hdtype : a.dtype = b.dtype)
    (hshape : a.shape = b.shape)
    (h : ∀ k < a.extent axis, ∀ l < a.extent axis.other,
      a.entryOn axis k l = b.entryOn axis k l) : a = b := by
  refine ext_of_entry ha hb hdtype hshape fun i hi j hj => ?_
  cases axis with
  | rows => exact h i hi j hj
  | cols => exact h j hj i hi

theorem extent_pos (ha : a.IsValid) (axis : Axis) : 0 < a.extent axis :=
  ((Shape.isPositive_iff_extent axis).1 ha.shape).1

/-! ## Transposes -/

section Transpose

variable (ha : a.shape.isMatrix = true)
include ha

theorem shape_transpose_of_isMatrix : a.transpose.shape = .matrix a.ncols a.nrows :=
  shape_transpose (Shape.eq_matrix_of_isMatrix ha)

theorem isMatrix_transpose : a.transpose.shape.isMatrix = true := by
  rw [shape_transpose_of_isMatrix ha]
  rfl

theorem extent_transpose (axis : Axis) : a.transpose.extent axis = a.extent axis.other := by
  rw [extent, shape_transpose_of_isMatrix ha]
  cases axis <;> rfl

theorem entryOn_transpose (hk : k < a.extent axis) (hl : l < a.extent axis.other) :
    a.transpose.entryOn axis.other k l = a.entryOn axis k l := by
  have hshape := Shape.eq_matrix_of_isMatrix ha
  cases axis with
  | rows => exact entry_transpose hshape hl hk
  | cols => exact entry_transpose hshape hk hl

end Transpose

end NumArray

end DenseNumeric
