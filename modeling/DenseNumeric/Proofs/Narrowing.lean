import DenseNumeric.Proofs.StorageAccess
import DenseNumeric.Proofs.ValidArray

/-!
# Narrow results

Whatever its element type, an array is computed in double precision, and its
result is quantized once. So it makes no difference whether an array is given
in a narrow type, or in double precision with the result narrowed afterwards:
the working matrices of both are the same (`toMatrix_astype`), and so are the
run, its records and its errors; and what comes out in double precision can be
narrowed at once or later (`DenseMatrix.astype_toNumArray`).
-/

namespace DenseNumeric

/-! ## Double precision -/

namespace DType

/-- The type in double precision with as many components. -/
def doublePrecision (d : DType) : DType := if d.isComplex then .c128 else .f64

/-- The components of a type in double precision are not rounded. -/
def IsDouble (d : DType) : Prop := d = .f64 ∨ d = .c128

variable {d w : DType}

theorem isDouble_doublePrecision (d : DType) : d.doublePrecision.IsDouble := by
  unfold doublePrecision
  split
  · exact .inr rfl
  · exact .inl rfl

@[simp] theorem isComplex_doublePrecision (d : DType) :
    d.doublePrecision.isComplex = d.isComplex := by
  cases d <;> rfl

@[simp] theorem isComplex_floatCounterpart (d : DType) :
    d.floatCounterpart.isComplex = d.isComplex := by
  cases d <;> rfl

theorem IsDouble.quantize (h : d.IsDouble) (x : Float) : d.quantize x = x := by
  rcases h with rfl | rfl <;> rfl

theorem IsDouble.floatCounterpart (h : d.IsDouble) : d.floatCounterpart = d := by
  rcases h with rfl | rfl <;> rfl

theorem IsDouble.complexCounterpart (h : d.IsDouble) : d.complexCounterpart = .c128 := by
  rcases h with rfl | rfl <;> rfl

end DType

/-! ## Results, narrowed at once or later -/

/-- Elements that were kept in double precision are quantized when they are
converted. They can go to a type with an imaginary part only if theirs was
kept. -/
theorem Storage.cast_ofComplex {d w : DType} (hw : w.IsDouble)
    (him : d.isComplex = true → w.isComplex = true) (values : Array (Complex Float)) :
    (ofComplex values w).cast d = ofComplex values d := by
  unfold cast
  split
  · next hd => rw [hd]; rfl
  · simp only [ofComplex, hw.quantize, Array.map_map, Function.comp_def]
    congr 1
    unfold imaginary
    split
    · next hd => simp [him hd, Function.comp_def]
    · rfl

theorem DenseMatrix.astype_toNumArray {n : Nat} {d w : DType} (hw : w.IsDouble)
    (him : d.isComplex = true → w.isComplex = true) (m : DenseMatrix n n (Complex Float)) :
    (m.toNumArray w).astype d = m.toNumArray d :=
  congrArg (NumArray.mk _) (Storage.cast_ofComplex hw him _)

namespace NumArray

/-- All arrays of a decomposition, in another element type. -/
def Factors.astype (f : Factors) (d : DType) : Factors := ⟨f.basis.astype d, f.form.astype d⟩

/-- Eigenvalues and eigenvectors in another element type. -/
def EigenArrays.astype (e : EigenArrays) (d : DType) : EigenArrays where
  values := e.values.astype d
  left := e.left.map (·.astype d)
  right := e.right.map (·.astype d)

section Astype

variable {n : Nat} (d : DType)

theorem astype_toNumArray_c128 (m : DenseMatrix n n (Complex Float)) :
    (m.toNumArray .c128).astype d = m.toNumArray d :=
  DenseMatrix.astype_toNumArray (.inr rfl) (fun _ => rfl) m

theorem Factors.astype_ofSimilar (p : Similar n Float) :
    (ofSimilar p .c128).astype d = ofSimilar p d := by
  simp only [ofSimilar, astype, astype_toNumArray_c128]

theorem EigenArrays.astype_mk (values : Array (Complex Float))
    (left right : Option (DenseMatrix n n (Complex Float))) :
    EigenArrays.astype ⟨⟨.vector n, .ofComplex values .c128⟩,
        left.map (·.toNumArray .c128), right.map (·.toNumArray .c128)⟩ d
      = ⟨⟨.vector n, .ofComplex values d⟩, left.map (·.toNumArray d),
        right.map (·.toNumArray d)⟩ := by
  have hvalues : (Storage.ofComplex values .c128).cast d = .ofComplex values d :=
    Storage.cast_ofComplex (.inr rfl) (fun _ => rfl) values
  simp only [astype, NumArray.astype, hvalues, Option.map_map]
  congr 2 <;> funext m <;> exact astype_toNumArray_c128 d m

end Astype

/-! ## Working matrices -/

theorem dims_astype (a : NumArray) (d : DType) : (a.astype d).dims = a.dims := rfl

theorem dtype_astype (a : NumArray) (d : DType) : (a.astype d).dtype = d := Storage.dtype_cast _ _

theorem complexCounterpart_astype (a : NumArray) {w : DType} (hw : w.IsDouble) :
    (a.astype w).dtype.complexCounterpart = .c128 := by
  rw [dtype_astype, hw.complexCounterpart]

section Matrices

variable {a : NumArray} (ha : a.IsValid) {n : Nat} (hn : squareOrder a.dims = .ok n)
include ha hn

/-- An element is the same number in double precision. Its imaginary part may
be left out if the array is real. -/
theorem entry_astype {w : DType} (hw : w.IsDouble) (him : a.isComplex = true → w.isComplex = true)
    {i j : Nat} (hi : i < n) (hj : j < n) : (a.astype w).entry i j = a.entry i j := by
  have hshape : a.shape = .matrix n n := Shape.eq_matrix_of_dims (squareOrder_eq_ok hn)
  have hlt : a.shape.offset i j < a.storage.size := by
    rw [ha.size, hshape]
    exact Shape.offset_lt_numel (s := .matrix n n) hi hj
  refine (Storage.loadComplex_cast ha.storage w hlt).trans (Complex.ext (hw.quantize _) ?_)
  show (if w.isComplex then w.quantize _ else 0) = _
  cases hreal : w.isComplex with
  | true => exact hw.quantize _
  | false =>
      have hd : a.storage.dtype.isComplex = false := by
        rw [hreal] at him
        simpa [isComplex, dtype] using him
      exact (Storage.loadComplex_im_of_real ha.storage hd _).symm

theorem toMatrix_astype {w : DType} (hw : w.IsDouble)
    (him : a.isComplex = true → w.isComplex = true) :
    (a.astype w).toMatrix n = a.toMatrix n :=
  DenseMatrix.ofFn_congr fun _ _ hi hj => entry_astype ha hn hw him hi hj

end Matrices

/-! ## Decompositions -/

section Decompositions

variable {a : NumArray} (ha : a.IsValid)
include ha

theorem inverseWith_eq_astype (pivoting : Pivoting) :
    a.inverseWith pivoting = ((a.astype a.dtype.doublePrecision).inverseWith pivoting).map
      (·.map (·.astype a.dtype.floatCounterpart)) := by
  have hw := a.dtype.isDouble_doublePrecision
  have hkind : a.dtype.doublePrecision.isComplex = a.isComplex := a.dtype.isComplex_doublePrecision
  have hcomplex : (a.astype a.dtype.doublePrecision).isComplex = a.isComplex := by
    rw [isComplex, dtype_astype, hkind]
  unfold inverseWith
  rw [dims_astype, hcomplex, dtype_astype, hw.floatCounterpart]
  cases hn : squareOrder a.dims with
  | error e => rfl
  | ok n =>
      have hnarrow (m : DenseMatrix n n (Complex Float)) :
          (m.toNumArray a.dtype.doublePrecision).astype a.dtype.floatCounterpart
            = m.toNumArray a.dtype.floatCounterpart := by
        refine DenseMatrix.astype_toNumArray hw (fun h => ?_) m
        rw [hkind, isComplex, ← a.dtype.isComplex_floatCounterpart, h]
      have hparts : (DenseMatrix.ofFn fun i j =>
            ((a.astype a.dtype.doublePrecision).entry i j).re : DenseMatrix n n Float)
          = .ofFn fun i j => (a.entry i j).re :=
        DenseMatrix.ofFn_congr fun i j hi hj =>
          congrArg Complex.re (entry_astype ha hn hw (fun h => hkind ▸ h) hi hj)
      dsimp only
      rw [toMatrix_astype ha hn hw fun h => hkind ▸ h, hparts]
      split <;> simp only [Logged.map, map_map, hnarrow]

section Complex

variable {w : DType} (hw : w.IsDouble) (hkind : a.isComplex = true → w.isComplex = true)
include hw hkind

theorem hessenberg_eq_astype :
    a.hessenberg = (a.astype w).hessenberg.map (·.astype a.dtype.complexCounterpart) := by
  unfold hessenberg
  rw [complexCounterpart_astype a hw, dims_astype]
  cases hn : squareOrder a.dims with
  | error e => rfl
  | ok n =>
      refine congrArg Except.ok ?_
      rw [toMatrix_astype ha hn hw hkind]
      exact (Factors.astype_ofSimilar _ _).symm

theorem schur_eq_astype :
    a.schur = (a.astype w).schur.map (·.map (·.astype a.dtype.complexCounterpart)) := by
  unfold schur
  rw [complexCounterpart_astype a hw, dims_astype]
  cases hn : squareOrder a.dims with
  | error e => rfl
  | ok n =>
      simp only [toMatrix_astype ha hn hw hkind, Logged.map, map_map, Factors.astype_ofSimilar]

theorem eig_eq_astype (options : EigenOptions) :
    a.eig options = ((a.astype w).eig options).map
      (·.map (·.astype a.dtype.complexCounterpart)) := by
  unfold eig
  rw [complexCounterpart_astype a hw, dims_astype]
  cases hn : squareOrder a.dims with
  | error e => rfl
  | ok n =>
      simp only [toMatrix_astype ha hn hw hkind, Logged.map, map_map,
        EigenArrays.astype_mk]

end Complex

/-- Every result, with its records and its errors, is that of the array in
double precision, narrowed: inverses to the type of the array, integers apart,
and all other results to its complex counterpart. Where the result is complex
anyhow, a real array may be given as a complex one as well. -/
theorem eq_doublePrecision_narrowed :
    (∀ pivoting, a.inverseWith pivoting
      = ((a.astype a.dtype.doublePrecision).inverseWith pivoting).map
          (·.map (·.astype a.dtype.floatCounterpart))) ∧
    ∀ w ∈ [a.dtype.doublePrecision, .c128],
      a.hessenberg = (a.astype w).hessenberg.map (·.astype a.dtype.complexCounterpart) ∧
      a.schur = (a.astype w).schur.map (·.map (·.astype a.dtype.complexCounterpart)) ∧
      ∀ options, a.eig options
        = ((a.astype w).eig options).map (·.map (·.astype a.dtype.complexCounterpart)) := by
  refine ⟨inverseWith_eq_astype ha, fun w hw => ?_⟩
  obtain ⟨hdouble, hkind⟩ : w.IsDouble ∧ (a.isComplex = true → w.isComplex = true) := by
    rcases List.mem_pair.1 hw with rfl | rfl
    · exact ⟨a.dtype.isDouble_doublePrecision, fun h => a.dtype.isComplex_doublePrecision ▸ h⟩
    · exact ⟨.inr rfl, fun _ => rfl⟩
  exact ⟨hessenberg_eq_astype ha hdouble hkind, schur_eq_astype ha hdouble hkind,
    eig_eq_astype ha hdouble hkind⟩

end Decompositions

/-- An array in single precision whose inverse, one fifth of whole numbers, is
not. -/
def narrowSquare : NumArray := ⟨.matrix 2 2, ⟨.f32, #[2, 1, 1, 3], none⟩⟩

theorem eq_doublePrecision_narrowed_narrowSquare :
    narrowSquare.IsValid ∧
      narrowSquare.inverse = (NumArray.inverse ⟨.matrix 2 2, ⟨.f64, #[2, 1, 1, 3], none⟩⟩).map
        (·.map (·.astype .f32)) ∧
      narrowSquare.schur
        = (NumArray.schur ⟨.matrix 2 2, ⟨.c128, #[2, 1, 1, 3], some #[0, 0, 0, 0]⟩⟩).map
            (·.map (·.astype .c64)) := by
  have hmade : ofPlanes [2, 2] .f32 #[2, 1, 1, 3] none = .ok narrowSquare := by decide +kernel
  have hreal : narrowSquare.astype .f64 = ⟨.matrix 2 2, ⟨.f64, #[2, 1, 1, 3], none⟩⟩ := by
    decide +kernel
  have hwide : narrowSquare.astype .c128
      = ⟨.matrix 2 2, ⟨.c128, #[2, 1, 1, 3], some #[0, 0, 0, 0]⟩⟩ := by
    decide +kernel
  have hvalid := ofPlanes_isValid hmade
  obtain ⟨hinverse, hcomplex⟩ := eq_doublePrecision_narrowed hvalid
  exact ⟨hvalid, hreal ▸ hinverse .firstNonzero, hwide ▸ (hcomplex .c128 (by simp)).2.1⟩

end NumArray

end DenseNumeric
