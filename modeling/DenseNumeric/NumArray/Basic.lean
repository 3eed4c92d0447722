import DenseNumeric.Shape
import DenseNumeric.Storage

/-!
# Numeric arrays

A vector or a matrix of elements of one type. This module builds arrays,
reads them out, converts and transposes them. Every constructor checks that
the data fills the shape.
-/

namespace DenseNumeric

/-- A shape and the elements that fill it, row by row. -/
structure NumArray where
  shape : Shape
  storage : Storage
deriving DecidableEq

namespace NumArray

/-! ## Properties -/

def dtype (a : NumArray) : DType := a.storage.dtype

def isComplex (a : NumArray) : Bool := a.dtype.isComplex

def dims (a : NumArray) : List Nat := a.shape.dims

def ndim (a : NumArray) : Nat := a.shape.ndim

def size (a : NumArray) : Nat := a.storage.size

def nrows (a : NumArray) : Nat := a.shape.rows

def ncols (a : NumArray) : Nat := a.shape.cols

/-- The element in a row and a column, as a complex number. -/
def entry (a : NumArray) (row col : Nat) : Complex Float :=
  a.storage.loadComplex (a.shape.offset row col)

/-- Equal shapes and types, and numerically equal components. -/
instance : BEq NumArray where
  beq a b := a.shape = b.shape && a.storage == b.storage

/-! ## Arrays of one value -/

def zeros (dims : List Nat) (dtype : DType) : Except Error NumArray := do
  let shape ← Shape.ofDims dims
  return ⟨shape, .zeros shape.numel dtype⟩

def full (dims : List Nat) (dtype : DType) (value : Scalar) : Except Error NumArray := do
  let shape ← Shape.ofDims dims
  return ⟨shape, .filled shape.numel dtype value⟩

def ones (dims : List Nat) (dtype : DType) : Except Error NumArray :=
  full dims dtype (.real 1)

def identity (n : Nat) (dtype : DType) : Except Error NumArray := do
  let shape ← Shape.ofDims [n, n]
  return ⟨shape, .ofComplex (shape.tabulate fun i j => if i = j then 1 else 0) dtype⟩

/-! ## Arrays of given elements -/

/-- Fills a shape with elements of their own type. -/
def ofElements {α : Type} [Element α] (data : Array α) (dims : List Nat) :
    Except Error NumArray := do
  let shape ← Shape.ofDims dims
  if data.size ≠ shape.numel then throw (.shapeMismatch shape.dims [data.size])
  return ⟨shape, .ofElements data⟩

/-- A matrix of given rows, all as long as the first one. -/
def ofRows {α : Type} [Element α] (rows : List (List α)) (dtype : DType) :
    Except Error NumArray := do
  let ncols := (rows.head?.map List.length).getD 0
  let shape ← Shape.ofDims [rows.length, ncols]
  match rows.find? (·.length ≠ ncols) with
  | some row => throw (.shapeMismatch [ncols] [row.length])
  | none => return ⟨shape, .ofElementsAs rows.flatten.toArray dtype⟩

/-- Fills a shape with elements given by their components. -/
def ofPlanes (dims : List Nat) (dtype : DType) (re : Array Float) (im : Option (Array Float)) :
    Except Error NumArray := do
  let shape ← Shape.ofDims dims
  if re.size ≠ shape.numel then throw (.shapeMismatch shape.dims [re.size])
  return ⟨shape, ← Storage.ofPlanes dtype re im⟩

/-! ## Reading out -/

def toComplexArray (a : NumArray) : Array (Complex Float) := a.storage.toComplexArray

def toArray (α : Type) [Element α] (a : NumArray) : Array α := a.storage.toArray α

/-! ## Conversion and transposition -/

def astype (a : NumArray) (dtype : DType) : NumArray :=
  ⟨a.shape, a.storage.cast dtype⟩

/-- The elements of `a` that fill a shape when element `(i, j)` is taken from
the place `place i j`. -/
def rearrange (a : NumArray) (shape : Shape) (place : Nat → Nat → Nat) : NumArray :=
  ⟨shape, a.storage.pick (shape.tabulate place)⟩

/-- Rows and columns exchanged; a vector is left as it is. -/
def transpose (a : NumArray) : NumArray :=
  match a.shape with
  | .vector _ => a
  | .matrix m n => a.rearrange (.matrix n m) fun i j => a.shape.offset j i

end NumArray

end DenseNumeric
