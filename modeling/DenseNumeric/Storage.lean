import DenseNumeric.Scalar
import DenseNumeric.Error

/-!
# Storage

The components of a run of elements, in two planes: the real parts and, for
complex element types only, the imaginary parts. Whatever is stored is first
quantized to the element type; an imaginary part given to a real type is
dropped.
-/

namespace DenseNumeric

/-- A run of elements of one type. -/
structure Storage where
  dtype : DType
  re : Array Float
  im : Option (Array Float)
deriving DecidableEq

namespace Storage

/-! ## Construction -/

/-- A second plane for a complex type, and none for a real one. -/
def imaginary (dtype : DType) (plane : Array Float) : Option (Array Float) :=
  if dtype.isComplex then some plane else none

def zeros (n : Nat) (dtype : DType) : Storage where
  dtype := dtype
  re := .replicate n 0
  im := imaginary dtype (.replicate n 0)

def filled (n : Nat) (dtype : DType) (value : Scalar) : Storage where
  dtype := dtype
  re := .replicate n (dtype.quantize value.toComplex.re)
  im := imaginary dtype (.replicate n (dtype.quantize value.toComplex.im))

/-- The elements with given components. Both planes have one length, even
when the second one is dropped; a missing one stands for zeros. -/
def ofPlanes (dtype : DType) (re : Array Float) (im : Option (Array Float)) :
    Except Error Storage :=
  let plane := im.getD (.replicate re.size 0)
  if plane.size ≠ re.size then .error (.shapeMismatch [re.size] [plane.size])
  else .ok {
    dtype := dtype
    re := re.map dtype.quantize
    im := imaginary dtype (plane.map dtype.quantize) }

def ofComplex (values : Array (Complex Float)) (dtype : DType) : Storage where
  dtype := dtype
  re := values.map fun z => dtype.quantize z.re
  im := imaginary dtype (values.map fun z => dtype.quantize z.im)

/-- Elements of any type, quantized to `dtype`. -/
def ofElementsAs {α : Type} [Element α] (data : Array α) (dtype : DType) : Storage :=
  ofComplex (data.map Element.toParts) dtype

def ofElements {α : Type} [Element α] (data : Array α) : Storage :=
  ofElementsAs data (Element.dtype α)

/-! ## Elements -/

def size (s : Storage) : Nat := s.re.size

def isEmpty (s : Storage) : Bool := s.re.isEmpty

/-- The element at a place, as a complex number. -/
def loadComplex (s : Storage) (i : Nat) : Complex Float :=
  ⟨s.re.getD i 0, (s.im.map (·.getD i 0)).getD 0⟩

/-- The element at a place: a real scalar if there is one plane only. -/
def load (s : Storage) (i : Nat) : Scalar :=
  if s.im.isSome then .complex (s.loadComplex i) else .real (s.loadComplex i).re

def storeComplex (s : Storage) (i : Nat) (z : Complex Float) : Storage :=
  { s with
    re := s.re.setIfInBounds i (s.dtype.quantize z.re)
    im := s.im.map fun plane => plane.setIfInBounds i (s.dtype.quantize z.im) }

def store (s : Storage) (i : Nat) (value : Scalar) : Storage :=
  s.storeComplex i value.toComplex

def toComplexArray (s : Storage) : Array (Complex Float) :=
  .ofFn fun i : Fin s.size => s.loadComplex i

/-- All components, first the real and then the imaginary ones. -/
def components (s : Storage) : List Float :=
  s.re.toList ++ (s.im.getD #[]).toList

def toArray (α : Type) [Element α] (s : Storage) : Array α :=
  s.toComplexArray.map Element.ofParts

/-! ## Runs of runs -/

def pick (s : Storage) (places : Array Nat) : Storage where
  dtype := s.dtype
  re := places.map fun i => s.re.getD i 0
  im := s.im.map fun plane => places.map fun i => plane.getD i 0

/-- The runs one after another. They have the type `dtype`. -/
def concat (dtype : DType) (runs : List Storage) : Storage where
  dtype := dtype
  re := (runs.flatMap fun s => s.re.toList).toArray
  im := imaginary dtype (runs.flatMap fun s => (s.im.getD #[]).toList).toArray

/-- Replaces the elements at given places, the `k`-th of them by `value k`. -/
def assign (s : Storage) (places : Array Nat) (value : Nat → Scalar) : Storage :=
  places.toList.zipIdx.foldl (fun acc (place, k) => acc.store place (value k)) s

/-! ## Conversion -/

def cast (s : Storage) (dtype : DType) : Storage :=
  if dtype = s.dtype then s
  else
    { dtype := dtype
      re := s.re.map dtype.quantize
      im := imaginary dtype ((s.im.map (·.map dtype.quantize)).getD (.replicate s.size 0)) }

instance : BEq Storage where
  beq s t := s.dtype = t.dtype && s.re == t.re && s.im == t.im

end Storage

end DenseNumeric
