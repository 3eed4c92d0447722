import DenseNumeric.NumArray.Basic

/-!
# Selecting elements

A key has one entry per axis, a position or a slice. Negative positions count
from the end of the axis. Resolving a key against an array checks every bound
and gives a `Region`: on either axis, an arithmetic progression of positions.
Reading and writing both go through the places of the region, in the same
order, so that what is written with a key is what is read with it.

A position collapses its axis. A region without axes is a single element, and
reading it gives a scalar; any other is an array of the remaining axes.
-/

namespace DenseNumeric

/-! ## Keys -/

/-- Every `step`-th position from `start` up to, but not including, `stop`,
or up to the end of the axis. -/
structure Slice where
  start : Int := 0
  stop : Option Int := none
  step : Nat := 1
deriving DecidableEq, Repr

inductive AxisKey where
  | position (index : Int)
  | slice (slice : Slice)
deriving DecidableEq, Repr

def AxisKey.all : AxisKey := .slice {}

/-! ## Resolved keys -/

/-- The positions `first`, `first + step`, …, `count` of them. -/
structure AxisRun where
  first : Nat
  step : Nat
  count : Nat
  collapsed : Bool
deriving DecidableEq, Repr

def AxisRun.position (r : AxisRun) (k : Nat) : Nat := r.first + k * r.step

/-- A single position, its axis collapsed. -/
def AxisRun.single (position : Nat) : AxisRun := ⟨position, 1, 1, true⟩

/-- An index counted from the start of an axis. A negative one is counted
from the end, once: one that lies before the start has no position. -/
def normalize? (index : Int) (length : Nat) : Option Nat :=
  let i := if index < 0 then length + index else index
  if 0 ≤ i then some i.toNat else none

/-- An index counted from the start, if it lies before `bound`. -/
def resolveIndex (index : Int) (length bound : Nat) : Except Error Nat :=
  match (normalize? index length).filter (· < bound) with
  | some i => .ok i
  | none => .error (.indexOutOfBounds index length)

/-- The positions that a key selects on an axis. A position lies on the axis;
the ends of a slice may also lie just behind it. -/
def AxisKey.resolve (key : AxisKey) (length : Nat) : Except Error AxisRun :=
  match key with
  | .position index => return .single (← resolveIndex index length length)
  | .slice ⟨start, stop, step⟩ => do
    if step = 0 then throw (.invalidArgument .zeroStep)
    let first ← resolveIndex start length (length + 1)
    let last ← match stop with
      | none => pure length
      | some stop => resolveIndex stop length (length + 1)
    if last ≤ first then throw (.invalidArgument (.emptySlice start last))
    return ⟨first, step, (last - first + step - 1) / step, false⟩

/-- The positions selected on both axes. A vector has one, collapsed, row. -/
structure Region where
  rows : AxisRun
  cols : AxisRun
deriving DecidableEq, Repr

namespace Region

/-- The shape of what is selected, unless it is a single element. -/
def shape? (r : Region) : Option Shape :=
  match r.rows.collapsed, r.cols.collapsed with
  | true, true => none
  | true, false => some (.vector r.cols.count)
  | false, true => some (.vector r.rows.count)
  | false, false => some (.matrix r.rows.count r.cols.count)

/-- The places of the selected elements in an array of shape `s`, row by row. -/
def places (r : Region) (s : Shape) : Array Nat :=
  (Shape.matrix r.rows.count r.cols.count).tabulate fun i j =>
    s.offset (r.rows.position i) (r.cols.position j)

end Region

/-! ## Reading and writing -/

/-- What a key selects: one element, or an array of them. -/
inductive Selection where
  | scalar (value : Scalar)
  | array (value : NumArray)
deriving DecidableEq

namespace NumArray

/-- Checks a key against an array; rows come before columns. -/
def resolve (a : NumArray) (key : List AxisKey) : Except Error Region :=
  match a.shape, key with
  | .vector n, [col] => return ⟨.single 0, ← col.resolve n⟩
  | .matrix m n, [row, col] => return ⟨← row.resolve m, ← col.resolve n⟩
  | _, _ => .error (.invalidArgument (.keyLength a.ndim key.length))

def select (a : NumArray) (r : Region) : Selection :=
  let elements := a.storage.pick (r.places a.shape)
  match r.shape? with
  | none => .scalar (elements.load 0)
  | some shape => .array ⟨shape, elements⟩

def get (a : NumArray) (key : List AxisKey) : Except Error Selection := do
  return a.select (← a.resolve key)

def setScalar (a : NumArray) (key : List AxisKey) (value : Scalar) : Except Error NumArray := do
  let r ← a.resolve key
  return { a with storage := a.storage.assign (r.places a.shape) fun _ => value }

/-- Writes an array over what a key selects. The shapes agree. -/
def setArray (a : NumArray) (key : List AxisKey) (value : NumArray) : Except Error NumArray := do
  let r ← a.resolve key
  let dims := (r.shape?.map Shape.dims).getD []
  if value.dims ≠ dims then throw (.shapeMismatch dims value.dims)
  return { a with storage := a.storage.assign (r.places a.shape) value.storage.load }

/-- Writes what was selected, or something like it. -/
def set (a : NumArray) (key : List AxisKey) (value : Selection) : Except Error NumArray :=
  match value with
  | .scalar x => a.setScalar key x
  | .array b => a.setArray key b

/-! ## Single elements, rows and columns -/

def item (a : NumArray) (index : List Int) : Except Error Scalar := do
  let r ← a.resolve (index.map .position)
  return (a.storage.pick (r.places a.shape)).load 0

def setItem (a : NumArray) (index : List Int) (value : Scalar) : Except Error NumArray :=
  a.setScalar (index.map .position) value

/-- One row or column of a matrix, as a vector. -/
def line (a : NumArray) (axis : Axis) (index : Int) : Except Error NumArray := do
  if ¬a.shape.isMatrix then throw (.invalidArgument (.lineOfVector axis a.dims))
  let r ← a.resolve <| match axis with
    | .rows => [.position index, .all]
    | .cols => [.all, .position index]
  return ⟨r.shape?.getD a.shape, a.storage.pick (r.places a.shape)⟩

def row (a : NumArray) (index : Int) : Except Error NumArray := a.line .rows index

def col (a : NumArray) (index : Int) : Except Error NumArray := a.line .cols index

end NumArray

end DenseNumeric
