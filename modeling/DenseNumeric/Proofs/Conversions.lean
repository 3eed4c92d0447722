import DenseNumeric.Proofs.Elements

/-!
# Conversions

The elements of an array are read out as values of any element type, and are
converted to any other element type. A value of a type has components that the
type keeps as they are, and what is read out is found by rounding to the type
once (`DType.toParts_ofParts`, `DType.ofParts_toParts`). So a conversion that
comes before another one, or before reading out, is seen only if it was to a
type that lacks values of the array's own.
-/

namespace DenseNumeric

/-- A 32-bit integer comes back from a double. -/
theorem Binary.int32_ofInt_toInt32_ofInt (n : Int32) :
    Int32.ofInt (toInt32 (ofInt n.toInt)) = n := by
  rw [toInt32_ofInt n.le_toInt n.toInt_lt, Int32.ofInt_toInt]

namespace DType

/-! ## Values of an element type -/

/-- The values that are the elements of an array of a type. -/
def Value : DType → Type
  | f64 => Float
  | f32 => Float32
  | i32 => Int32
  | c64 => Complex Float32
  | c128 => Complex Float

instance : (d : DType) → Element d.Value
  | f64 => inferInstanceAs (Element Float)
  | f32 => inferInstanceAs (Element Float32)
  | i32 => inferInstanceAs (Element Int32)
  | c64 => inferInstanceAs (Element (Complex Float32))
  | c128 => inferInstanceAs (Element (Complex Float))

@[simp] theorem dtype_value (d : DType) : Element.dtype d.Value = d := by
  cases d <;> rfl

/-- A value is known by its components. -/
theorem ofParts_toParts (d : DType) (x : d.Value) :
    (Element.ofParts (Element.toParts x) : d.Value) = x := by
  cases d with
  | f64 => rfl
  | f32 => exact Binary.narrow_widen x
  | i32 => exact Binary.int32_ofInt_toInt32_ofInt x
  | c64 => exact Complex.ext (Binary.narrow_widen x.re) (Binary.narrow_widen x.im)
  | c128 => rfl

/-- A number is stored as the value that it is read out as. -/
theorem toParts_ofParts (d : DType) (z : Complex Float) :
    Element.toParts (Element.ofParts z : d.Value) = d.element z := by
  cases d with
  | f64 => rfl
  | f32 => rfl
  | i32 =>
      have ⟨hmin, hmax⟩ := Binary.toInt32_mem z.re
      exact Complex.ext (congrArg Binary.ofInt (Int32.toInt_ofInt_of_le hmin hmax)) rfl
  | c64 => rfl
  | c128 => rfl

/-- A value is not rounded in an array of its type. -/
theorem element_toParts (d : DType) (x : d.Value) :
    d.element (Element.toParts x) = Element.toParts x := by
  rw [← toParts_ofParts, ofParts_toParts]

/-- Reading out rounds as storing does, so that stored numbers stay. -/
theorem ofParts_element (d : DType) (z : Complex Float) :
    (Element.ofParts (d.element z) : d.Value) = Element.ofParts z := by
  rw [← toParts_ofParts, ofParts_toParts]

/-! ## Types with all values of another -/

/-- Every value of `d'` is kept as it is in an array of type `d`. -/
def Represents (d d' : DType) : Prop :=
  ∀ x : d'.Value, d.element (Element.toParts x) = Element.toParts x

/-- The other types that have all values of a type. -/
def wider : DType → List DType
  | f64 => [c128]
  | f32 => [f64, c64, c128]
  | i32 => [f64, c128]
  | c64 => [c128]
  | c128 => []

theorem Represents.element {d d' : DType} (h : d.Represents d') (z : Complex Float) :
    d.element (d'.element z) = d'.element z := by
  rw [← toParts_ofParts d' z]
  exact h _

/-- A type loses values of any other, unless it is one of the wider types. One
tenth with an imaginary part of one shows this, except for integers in single
precision, where one of 25 bits does. -/
theorem represents_iff {d d' : DType} : d.Represents d' ↔ d = d' ∨ d ∈ d'.wider := by
  constructor
  · intro h
    have htenth := h.element ⟨0.1, 1⟩
    have hinteger := h.element ⟨16777217, 0⟩
    revert htenth hinteger
    cases d <;> cases d' <;> decide +kernel
  · rintro (rfl | hd) x
    · exact element_toParts d x
    · cases d' with
      | f64 =>
          obtain rfl : d = c128 := List.mem_singleton.1 hd
          rfl
      | f32 =>
          obtain rfl | rfl | rfl : d = f64 ∨ d = c64 ∨ d = c128 := by simpa [wider] using hd
          · rfl
          · exact Complex.ext (congrArg Binary.widen (Binary.narrow_widen x)) c64.quantize_zero
          · rfl
      | i32 =>
          obtain rfl | rfl : d = f64 ∨ d = c128 := by simpa [wider] using hd
          · rfl
          · rfl
      | c64 =>
          obtain rfl : d = c128 := List.mem_singleton.1 hd
          rfl
      | c128 => cases hd

end DType

/-! ## Runs of elements -/

namespace Storage

variable {s : Storage}

theorem size_toArray (α : Type) [Element α] (s : Storage) : (s.toArray α).size = s.size := by
  simp [toArray, toComplexArray]

theorem getElem_toArray (α : Type) [Element α] (s : Storage) {i : Nat}
    (hi : i < (s.toArray α).size) : (s.toArray α)[i] = Element.ofParts (s.loadComplex i) := by
  simp [toArray, toComplexArray]

/-- What is put into a run of its own type is read out again. -/
theorem toArray_ofElements (t : DType) (data : Array t.Value) :
    (ofElements data).toArray t.Value = data := by
  have hsize : (ofElements data).size = data.size := by simp [ofElements, ofElementsAs]
  refine Array.ext ((size_toArray _ _).trans hsize) fun i hi hi' => ?_
  rw [getElem_toArray, ofElements, ofElementsAs, loadComplex_ofComplex (by simpa using hi'),
    Array.getElem_map, DType.dtype_value, DType.ofParts_element, DType.ofParts_toParts]

/-- Reading out as a type rounds as a conversion to the type does. -/
theorem toArray_cast (hs : s.IsValid) (t : DType) :
    (s.cast t).toArray t.Value = s.toArray t.Value := by
  refine Array.ext (by simp only [size_toArray, size_cast]) fun i hi hi' => ?_
  rw [size_toArray] at hi'
  rw [getElem_toArray, getElem_toArray, loadComplex_cast hs t hi', DType.ofParts_element]

theorem cast_self (s : Storage) : s.cast s.dtype = s :=
  if_pos rfl

/-- A conversion to a type that has all values of the run leaves no trace. -/
theorem cast_cast (hs : s.IsValid) {d : DType} (hd : d.Represents s.dtype) (e : DType) :
    (s.cast d).cast e = s.cast e := by
  have hcast := cast_isValid hs d
  refine ext_of_loadComplex (cast_isValid hcast e) (cast_isValid hs e)
    (by rw [dtype_cast, dtype_cast]) (by simp only [size_cast]) fun i hi => ?_
  rw [size_cast, size_cast] at hi
  have hsize : i < (s.cast d).size := by rwa [size_cast]
  have hkeep : d.element (s.loadComplex i) = s.loadComplex i := by
    rw [← element_loadComplex hs i]
    exact hd.element _
  rw [loadComplex_cast hcast e hsize, loadComplex_cast hs d hi, loadComplex_cast hs e hi, hkeep]

end Storage

/-! ## Arrays -/

namespace NumArray

variable {a : NumArray}

/-- Data of any type fill a shape of their size, and are read out as they were
put in. -/
theorem exists_ofElements {t : DType} {data : Array t.Value} {s : Shape} (hs : s.IsPositive)
    (hsize : data.size = s.numel) :
    ∃ b, ofElements data s.dims = .ok b ∧ b.toArray t.Value = data := by
  refine ⟨⟨s, .ofElements data⟩, ?_, Storage.toArray_ofElements t data⟩
  rw [ofElements, Shape.ofDims_dims hs]
  exact check_eq_ok.2 ⟨not_not.2 hsize, rfl⟩

/-- Data are read out as they were put in, as any type is read out what the
conversion to it holds, and a conversion by way of a type that has all values of
the array's own is the conversion itself; so back and forth it is nothing. -/
theorem conversions_compose (ha : a.IsValid) :
    (∀ (t : DType) (data : Array t.Value) (s : Shape), s.IsPositive → data.size = s.numel →
      ∃ b, ofElements data s.dims = .ok b ∧ b.toArray t.Value = data) ∧
    (∀ t : DType, a.toArray t.Value = (a.astype t).toArray t.Value) ∧
    ∀ d : DType, (d.Represents a.dtype ↔ d = a.dtype ∨ d ∈ a.dtype.wider) ∧
      (d.Represents a.dtype →
        (∀ e, (a.astype d).astype e = a.astype e) ∧ (a.astype d).astype a.dtype = a) := by
  refine ⟨fun t data s hs hsize => exists_ofElements hs hsize,
    fun t => (Storage.toArray_cast ha.storage t).symm,
    fun d => ⟨DType.represents_iff, fun hd => ?_⟩⟩
  have htwice : ∀ e, (a.astype d).astype e = a.astype e := fun e =>
    congrArg (NumArray.mk a.shape) (Storage.cast_cast ha.storage hd e)
  refine ⟨htwice, (htwice a.dtype).trans ?_⟩
  exact congrArg (NumArray.mk a.shape) (Storage.cast_self a.storage)

/-- One tenth, a negative zero and infinity in single precision. -/
def singles : NumArray := ⟨.vector 3, .ofComplex #[⟨0.1, 0⟩, ⟨-0, 0⟩, ⟨1 / 0, 0⟩] .f32⟩

theorem singles_isValid : singles.IsValid := isValid_mk_ofComplex (by decide) rfl _

theorem conversions_compose_singles :
    singles.IsValid ∧ singles.toArray Float32 = (singles.astype .f32).toArray Float32 ∧
    DType.c64.Represents singles.dtype ∧ ¬DType.i32.Represents singles.dtype ∧
    (singles.astype .c64).astype .i32 = singles.astype .i32 ∧
    (singles.astype .c64).astype singles.dtype = singles := by
  obtain ⟨-, hread, hconvert⟩ := conversions_compose singles_isValid
  have hc64 : DType.c64.Represents singles.dtype := (hconvert .c64).1.2 (by decide)
  have hi32 : ¬DType.i32.Represents singles.dtype := fun h =>
    absurd ((hconvert .i32).1.1 h) (by decide)
  exact ⟨singles_isValid, hread .f32, hc64, hi32, ((hconvert .c64).2 hc64).1 .i32,
    ((hconvert .c64).2 hc64).2⟩

end NumArray

end DenseNumeric
