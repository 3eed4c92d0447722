import DenseNumeric.DType

/-!
# Errors

What can go wrong, as causes. `Error.message` words them; a misused argument
is named in its message, and `Misuse` lists the ways to misuse one.
-/

namespace DenseNumeric

/-- The text of a list of extents: `[2, 3]`. -/
def dimsText (dims : List Nat) : String :=
  "[" ++ ", ".intercalate (dims.map toString) ++ "]"

/-- The two directions in an array of rows. -/
inductive Axis where
  | rows
  | cols
deriving DecidableEq, Repr

/-- The ways to measure an array. -/
inductive NormOrder where
  | frobenius
  | one
  | infinity
deriving DecidableEq, Repr

/-- An argument that an operation does not accept. -/
inductive Misuse where
  /-- A shape of neither one nor two extents. -/
  | rank (count : Nat)
  /-- A shape with an extent of zero. -/
  | emptyExtent (dims : List Nat)
  /-- A key with more or fewer entries than the array has axes. -/
  | keyLength (axes entries : Nat)
  /-- A slice that takes every zeroth element. -/
  | zeroStep
  /-- A slice without elements. -/
  | emptySlice (start : Int) (stop : Nat)
  /-- A row or a column of a vector. -/
  | lineOfVector (axis : Axis) (dims : List Nat)
  /-- A stack of no arrays. -/
  | emptyStack
  /-- A split into no parts. -/
  | noSections
  /-- A split of a vector by rows. -/
  | rowsOfVector (dims : List Nat)
  /-- A split into parts of different sizes. -/
  | unevenSections (sections extent : Nat)
  /-- A matrix norm of a vector. -/
  | normOfVector (order : NormOrder) (dims : List Nat)
  /-- A matrix operation on something else. -/
  | notMatrix (dims : List Nat)
deriving DecidableEq, Repr

namespace Misuse

def argument : Misuse → String
  | rank _ | emptyExtent _ => "shape"
  | keyLength _ _ | emptySlice _ _ => "key"
  | zeroStep => "step"
  | lineOfVector .rows _ => "row"
  | lineOfVector .cols _ => "col"
  | emptyStack => "parts"
  | noSections | unevenSections _ _ => "sections"
  | rowsOfVector _ => "array"
  | normOfVector _ _ => "order"
  | notMatrix _ => "a"

def reason : Misuse → String
  | rank count => "expected 1 or 2 dimensions, got " ++ toString count
  | emptyExtent dims => "every extent must be positive, got " ++ dimsText dims
  | keyLength axes entries =>
    "expected " ++ toString axes ++ " indices for a " ++ toString axes ++ "-D array, got "
      ++ toString entries
  | zeroStep => "must be at least 1"
  | emptySlice start stop =>
    "slice " ++ toString start ++ ".." ++ toString stop ++ " selects no elements"
  | lineOfVector _ dims => "requires a 2-D array, got shape " ++ dimsText dims
  | emptyStack => "stacking requires at least one array"
  | noSections => "sections must be greater than zero"
  | rowsOfVector dims => "vsplit requires a 2-D array, got shape " ++ dimsText dims
  | unevenSections sections extent =>
    toString sections ++ " sections do not evenly divide an extent of " ++ toString extent
  | normOfVector order dims =>
    let name := match order with
      | .frobenius => "Frobenius"
      | .one => "One"
      | .infinity => "Inf"
    name ++ " norm requires a 2-D array, got shape " ++ dimsText dims
  | notMatrix dims =>
    "expected 2D matrix, got " ++ toString dims.length ++ "D array with shape " ++ dimsText dims

end Misuse

/-- Why an operation gives no result. -/
inductive Error where
  | shapeMismatch (expected got : List Nat)
  | unsupportedDType (dtype : DType) (operation : String)
  | dtypeMismatch (expected got : DType)
  | indexOutOfBounds (index : Int) (size : Nat)
  | invalidArgument (misuse : Misuse)
  | singularMatrix (column : Nat)
  | noConvergence (iterations : Nat)
deriving DecidableEq, Repr

def Error.message : Error → String
  | shapeMismatch expected got =>
    "Shape mismatch: expected " ++ dimsText expected ++ ", got " ++ dimsText got
  | unsupportedDType dtype operation =>
    "Unsupported dtype " ++ dtype.longName ++ " for operation '" ++ operation ++ "'"
  | dtypeMismatch expected got =>
    "DType mismatch: " ++ expected.longName ++ " vs " ++ got.longName
  | indexOutOfBounds index size =>
    "Index " ++ toString index ++ " out of bounds for dimension of size " ++ toString size
  | invalidArgument misuse =>
    "Invalid argument '" ++ misuse.argument ++ "': " ++ misuse.reason
  | singularMatrix column =>
    "Matrix is singular: no nonzero pivot in column " ++ toString column
  | noConvergence iterations =>
    "QR iteration failed to converge after " ++ toString iterations ++ " iterations"

end DenseNumeric
