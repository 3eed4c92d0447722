import DenseNumeric.Proofs.CheckedElimination
import DenseNumeric.Proofs.FactorZeros

/-!
# Reduction in place

A complex array can be reduced to its Hessenberg form where it stands. The form
is written over the array first and the basis is written out afterwards, and
writing out is an operation that can fail: the elements have to fill a shape,
and the shape must not be empty. So the reduction is safe only because this
check cannot fail where it is made. A working matrix has as many entries as its
shape, and the order of a valid array is not zero (`writeOut_eq`); all other
checks come before the array is changed.

That the result is the one for a copy of the array needs no look at the
arithmetic: both are written from one and the same reduction, and in one type,
as a complex type is its own complex counterpart.
-/

namespace DenseNumeric

variable {n : Nat}

/-! ## Writing out -/

/-- Fills a shape with values of working precision. -/
def NumArray.ofValues (dims : List Nat) (dtype : DType) (values : Array (Complex Float)) :
    Except Error NumArray := do
  let shape ← Shape.ofDims dims
  if values.size ≠ shape.numel then throw (.shapeMismatch shape.dims [values.size])
  return ⟨shape, .ofComplex values dtype⟩

namespace DenseMatrix

def writeOut (b : DenseMatrix n n (Complex Float)) (dtype : DType) : Except Error NumArray :=
  NumArray.ofValues [n, n] dtype b.entries.toArray

theorem entries_toArray (b : DenseMatrix n n (Complex Float)) :
    b.entries.toArray = (Shape.matrix n n).tabulate b := by
  rw [entries_eq]
  exact (congrArg List.toArray (Shape.toList_tabulate (.matrix n n) b).symm).trans
    Array.toArray_toList

/-- A matrix with a row passes both checks. -/
theorem writeOut_eq (hn : 0 < n) (b : DenseMatrix n n (Complex Float)) (dtype : DType) :
    b.writeOut dtype = .ok (b.toNumArray dtype) := by
  have hshape : Shape.ofDims [n, n] = .ok (.matrix n n) :=
    Shape.ofDims_dims (s := .matrix n n) ⟨hn, hn⟩
  rw [writeOut, entries_toArray, NumArray.ofValues, hshape]
  exact if_neg (not_not.2 (Shape.size_tabulate _ _))

end DenseMatrix

/-! ## The reduction, step by step -/

theorem DType.complexCounterpart_of_isComplex {d : DType} (h : d.isComplex = true) :
    d.complexCounterpart = d := by
  cases d <;> first
    | rfl
    | cases h

namespace NumArray

/-- The form takes the place of the array before the basis is written out. -/
def storeFactors (r : Similar n Float) (dtype : DType) : EStateM Error NumArray NumArray := do
  EStateM.set (← MonadExcept.ofExcept (r.matrix.writeOut dtype))
  MonadExcept.ofExcept ((r.basis.getD .identity).writeOut dtype)

/-- The reduction as it changes an array, which ends as the form; the basis is
what it gives. -/
def reduceInPlace : EStateM Error NumArray NumArray := do
  let a ← getThe NumArray
  if a.isComplex then
    let n ← MonadExcept.ofExcept (squareOrder a.dims)
    storeFactors ((a.toMatrix n).hessenberg true) a.dtype
  else throw (.unsupportedDType a.dtype "hessenberg_in_place")

variable {a : NumArray}

theorem run_storeFactors (hn : 0 < n) (r : Similar n Float) (dtype : DType) (a : NumArray) :
    (storeFactors r dtype).run a
      = .ok (Factors.ofSimilar r dtype).basis (Factors.ofSimilar r dtype).form := by
  rw [storeFactors, DenseMatrix.writeOut_eq hn, DenseMatrix.writeOut_eq hn]
  rfl

/-- The checks come first, and nothing has changed. -/
theorem run_reduceInPlace_eq (a : NumArray) :
    reduceInPlace.run a =
      if a.isComplex then
        match squareOrder a.dims with
        | .error e => .error e a
        | .ok n => (storeFactors ((a.toMatrix n).hessenberg true) a.dtype).run a
      else .error (.unsupportedDType a.dtype "hessenberg_in_place") a := by
  show EStateM.run (if a.isComplex then _ else _ : EStateM Error NumArray NumArray) a = _
  split
  · cases squareOrder a.dims <;> rfl
  · rfl

theorem run_reduceInPlace (ha : a.IsValid) :
    reduceInPlace.run a = match a.hessenbergInPlace with
      | .ok f => .ok f.basis f.form
      | .error e => .error e a := by
  rw [run_reduceInPlace_eq, hessenbergInPlace]
  split
  · next hcomplex =>
      cases hn : squareOrder a.dims with
      | error e =>
          rw [hessenberg, hn]
          rfl
      | ok n =>
          rw [hessenberg, hn, DType.complexCounterpart_of_isComplex hcomplex]
          exact run_storeFactors (pos_of_squareOrder ha hn) _ _ a
  · rfl

theorem hessenbergInPlace_eq_ok_iff {f : Factors} :
    a.hessenbergInPlace = .ok f ↔ a.isComplex = true ∧ a.hessenberg = .ok f := by
  unfold hessenbergInPlace
  split <;> simp [*]

theorem exists_hessenbergInPlace_iff :
    (∃ f, a.hessenbergInPlace = .ok f) ↔ a.isComplex = true ∧ ∃ n, a.shape = .matrix n n := by
  constructor
  · rintro ⟨f, hf⟩
    obtain ⟨hcomplex, hf⟩ := hessenbergInPlace_eq_ok_iff.1 hf
    obtain ⟨n, hn, -⟩ := bind_eq_ok.1 hf
    exact ⟨hcomplex, n, squareOrder_eq_ok_iff.1 hn⟩
  · rintro ⟨hcomplex, n, hshape⟩
    have hn : squareOrder a.dims = .ok n := squareOrder_eq_ok_iff.2 hshape
    exact ⟨_, hessenbergInPlace_eq_ok_iff.2 ⟨hcomplex, bind_eq_ok.2 ⟨n, hn, rfl⟩⟩⟩

/-- In place the array ends as the form that the reduction of a copy gives, and
the result is its basis. The reduction fails exactly for real arrays and for
those that are not square, and then it leaves the array as it was. -/
theorem reduceInPlace_agrees_with_hessenberg (ha : a.IsValid) :
    (reduceInPlace.run a = match a.hessenbergInPlace with
      | .ok f => .ok f.basis f.form
      | .error e => .error e a)
      ∧ ((∃ e b, reduceInPlace.run a = .error e b)
        ↔ a.isComplex = false ∨ ¬∃ n, a.shape = .matrix n n)
      ∧ (∀ e b, reduceInPlace.run a = .error e b → b = a)
      ∧ ∀ q h, reduceInPlace.run a = .ok q h →
        a.hessenberg = .ok ⟨q, h⟩ ∧ h.dtype = a.dtype ∧ h.shape = a.shape ∧ h.HasZerosBelow 1 := by
  have hrun := run_reduceInPlace ha
  have hfails : (∃ e b, reduceInPlace.run a = .error e b)
      ↔ ¬∃ f, a.hessenbergInPlace = .ok f := by
    rw [hrun]
    cases a.hessenbergInPlace <;> simp
  refine ⟨hrun, ?_, fun e b h => ?_, fun q h hqh => ?_⟩
  · rw [hfails, exists_hessenbergInPlace_iff, not_and_or, Bool.not_eq_true]
  · rw [hrun] at h
    split at h <;> cases h
    rfl
  · rw [hrun] at hqh
    split at hqh <;> cases hqh
    next f hf =>
      obtain ⟨hcomplex, hf⟩ := hessenbergInPlace_eq_ok_iff.1 hf
      obtain ⟨n, hn, hfactors⟩ := bind_eq_ok.1 hf
      obtain ⟨⟨f', hf', hzeros⟩, -⟩ := factors_haveZeros hn
      obtain rfl : f = f' := Except.ok.inj (hf.symm.trans hf')
      obtain rfl := pure_eq_ok.1 hfactors
      refine ⟨hf, ?_, (squareOrder_eq_ok_iff.1 hn).symm, hzeros⟩
      exact DType.complexCounterpart_of_isComplex hcomplex

/-- A complex matrix in single precision, with an element to be cleared. -/
def singleSquare : NumArray :=
  ⟨.matrix 3 3, .ofComplex
    #[⟨1, 0⟩, ⟨2, -1⟩, ⟨3, 0⟩, ⟨4, 1⟩, ⟨5, 0⟩, ⟨6, 0⟩, ⟨0, 3⟩, ⟨4, 0⟩, ⟨-0, 1⟩] .c64⟩

theorem reduceInPlace_agrees_with_hessenberg_singleSquare :
    singleSquare.IsValid ∧
      ∃ q h, reduceInPlace.run singleSquare = .ok q h ∧ singleSquare.hessenberg = .ok ⟨q, h⟩ ∧
        h.dtype = .c64 ∧ h.shape = .matrix 3 3 ∧ h.HasZerosBelow 1 := by
  have hvalid : singleSquare.IsValid := isValid_mk_ofComplex (by decide) rfl _
  obtain ⟨-, hfails, -, hok⟩ := reduceInPlace_agrees_with_hessenberg hvalid
  refine ⟨hvalid, ?_⟩
  cases hrun : reduceInPlace.run singleSquare with
  | ok q h => exact ⟨q, h, rfl, hok q h hrun⟩
  | error e b =>
      rcases hfails.1 ⟨e, b, hrun⟩ with hreal | hshape
      · cases hreal
      · exact absurd ⟨3, rfl⟩ hshape

end NumArray

end DenseNumeric
