import DenseNumeric.NumArray.Basic

/-!
# Stacking and splitting

Arrays of one type are joined side by side or one below the other, and an
array is cut into parts of equal size along an axis. Components are moved,
never changed. Below one another, a vector counts as a single row; side by
side, vectors join into a vector.
-/

namespace DenseNumeric

namespace NumArray

/-! ## Stacking -/

def commonDType (first : NumArray) (parts : List NumArray) : Except Error DType :=
  match parts.find? (·.dtype ≠ first.dtype) with
  | some part => .error (.dtypeMismatch first.dtype part.dtype)
  | none => .ok first.dtype

def rowElements (a : NumArray) (row : Nat) : Storage :=
  a.storage.pick ((Shape.vector a.ncols).tabulate fun _ j => a.shape.offset row j)

/-- The parts one below the other; they have one number of columns. -/
def vstack (parts : List NumArray) : Except Error NumArray := do
  let first :: _ := parts | throw (.invalidArgument .emptyStack)
  let dtype ← commonDType first parts
  let cols := first.ncols
  match parts.find? (·.ncols ≠ cols) with
  | some part => throw (.shapeMismatch [part.nrows, cols] part.dims)
  | none =>
    let rows := parts.foldl (fun rows part => rows + part.nrows) 0
    return ⟨.matrix rows cols, .concat dtype (parts.map storage)⟩

/-- The parts side by side; they are all vectors, or all matrices with one
number of rows. -/
def hstack (parts : List NumArray) : Except Error NumArray := do
  let first :: _ := parts | throw (.invalidArgument .emptyStack)
  let dtype ← commonDType first parts
  let rows := first.nrows
  match parts.find? fun part => part.ndim ≠ first.ndim ∨ part.nrows ≠ rows with
  | some part => throw (.shapeMismatch ((rows :: part.dims.tail).take first.ndim) part.dims)
  | none =>
    let cols := parts.foldl (fun cols part => cols + part.ncols) 0
    let shape := match first.shape with
      | .vector _ => Shape.vector cols
      | .matrix _ _ => Shape.matrix rows cols
    let runs := (List.range rows).flatMap fun i => parts.map (·.rowElements i)
    return ⟨shape, .concat dtype runs⟩

/-! ## Splitting -/

/-- The `k`-th part of `a` when an axis is cut every `width` positions. -/
def cut (a : NumArray) (axis : Axis) (width k : Nat) : NumArray :=
  match axis, a.shape with
  | .rows, _ =>
    a.rearrange (.matrix width a.ncols) fun i j => a.shape.offset (k * width + i) j
  | .cols, .vector _ => a.rearrange (.vector width) fun i j => a.shape.offset i (k * width + j)
  | .cols, .matrix m _ =>
    a.rearrange (.matrix m width) fun i j => a.shape.offset i (k * width + j)

/-- Cuts an axis into a number of equal parts. -/
def split (a : NumArray) (axis : Axis) (sections : Nat) : Except Error (List NumArray) := do
  if sections = 0 then throw (.invalidArgument .noSections)
  if axis = .rows ∧ ¬a.shape.isMatrix then throw (.invalidArgument (.rowsOfVector a.dims))
  let extent := match axis with
    | .rows => a.nrows
    | .cols => a.ncols
  if extent % sections ≠ 0 then throw (.invalidArgument (.unevenSections sections extent))
  return (List.range sections).map (a.cut axis (extent / sections))

/-- Parts with fewer columns, from left to right. -/
def hsplit (a : NumArray) (sections : Nat) : Except Error (List NumArray) :=
  a.split .cols sections

/-- Parts with fewer rows, from top to bottom. -/
def vsplit (a : NumArray) (sections : Nat) : Except Error (List NumArray) :=
  a.split .rows sections

end NumArray

end DenseNumeric
