import DenseNumeric.Proofs.CheckedLoops
import DenseNumeric.Proofs.Elements

/-!
# Scalar operands

A scalar on the right stands for an array of its shape, full of it: a real one
in double precision, a complex one in double precision complex. The two
operations choose between real and complex arithmetic by different questions,
one by the types of both arrays and the other by what kind of scalar it is; here
both are written down with their loops, each result stored in place as soon as
it is there. Neither goes wrong, whatever the left type is, and they store the
same.
-/

namespace DenseNumeric

/-- The element type with room for every scalar of its kind. -/
def Scalar.dtype : Scalar → DType
  | real _ => .f64
  | complex _ => .c128

/-- A scalar is not rounded in an array of its type. -/
theorem Scalar.element_dtype (x : Scalar) : x.dtype.element x.toComplex = x.toComplex := by
  cases x <;> rfl

theorem Scalar.isComplex_dtype (x : Scalar) : x.dtype.isComplex = x.isComplex := by
  cases x <;> rfl

namespace Checked

/-! ## The loops -/

/-- A run of zeros in which one element after another is stored, each as soon
as it is there. -/
def storeEach (n : Nat) (dtype : DType) (value : Nat → Checked Scalar) : Checked Storage :=
  loop 0 n (.zeros n dtype) fun out i => do store out i (← value i)

def loadComplex (s : Storage) (i : Nat) : Checked (Complex Float) := do
  return (← load s i).toComplex

/-- What is stored for an element of two arrays; the types of both decide how it
is computed. -/
def pairKernel (op : BinaryOp) (a b : NumArray) : Nat → Checked Scalar :=
  if !a.isComplex && !b.isComplex then fun i => do
    return .real (op.apply (← read a.storage.re i) (← read b.storage.re i))
  else fun i => do
    return .complex (op.apply (← loadComplex a.storage i) (← loadComplex b.storage i))

/-- What is stored for an element of an array and a scalar; the kind of the
scalar decides, and the type of the array. -/
def scalarKernel (op : BinaryOp) (a : NumArray) (x : Scalar) : Nat → Checked Scalar :=
  match x, a.isComplex with
  | .real y, false => fun i => do
    return .real (op.apply (← read a.storage.re i) y)
  | x, _ => fun i => do
    return .complex (op.apply (← loadComplex a.storage i) x.toComplex)

def combine (op : BinaryOp) (a b : NumArray) : Checked NumArray := do
  if a.shape ≠ b.shape then throw (.refused (.shapeMismatch a.dims b.dims))
  return ⟨a.shape, ← storeEach a.size a.dtype (pairKernel op a b)⟩

def combineScalar (op : BinaryOp) (a : NumArray) (x : Scalar) : Checked NumArray := do
  return ⟨a.shape, ← storeEach a.size a.dtype (scalarKernel op a x)⟩

/-! ## What they store -/

/-- Elements stored one after another are the elements of the run. -/
theorem storeEach_eq {n : Nat} (dtype : DType) {value : Nat → Checked Scalar}
    (z : Nat → Complex Float) (h : ∀ k < n, ∃ x, value k = .ok x ∧ x.toComplex = z k) :
    storeEach n dtype value = .ok (.ofComplex (.ofFn fun i : Fin n => z i) dtype) := by
  -- what is there after `k` of them, with zeros behind
  let f (k : Nat) : Storage := .ofComplex (.ofFn fun i : Fin n => if i < k then z i else 0) dtype
  have hvalid (k : Nat) : (f k).IsValid := Storage.ofComplex_isValid _ _
  have hsize (k : Nat) : (f k).size = n := by
    rw [Storage.size_ofComplex, Array.size_ofFn]
  have hload (k i : Nat) (hi : i < n) :
      (f k).loadComplex i = dtype.element (if i < k then z i else 0) := by
    rw [Storage.loadComplex_ofComplex (by rwa [Array.size_ofFn]), Array.getElem_ofFn]
  have hstart : Storage.zeros n dtype = f 0 := by
    refine Storage.ext_of_loadComplex (Storage.zeros_isValid n dtype) (hvalid 0) rfl
      ((Storage.size_zeros n dtype).trans (hsize 0).symm) fun i hi => ?_
    rw [Storage.size_zeros] at hi
    rw [hload 0 i hi, Storage.loadComplex_zeros, if_neg (Nat.not_lt_zero i), DType.element_zero]
  have hend : f n = .ofComplex (.ofFn fun i : Fin n => z i) dtype :=
    congrArg (fun g => Storage.ofComplex (.ofFn g) dtype) (funext fun i => if_pos i.isLt)
  rw [storeEach, hstart, ← hend]
  refine loop_eq (f := f) (Nat.zero_le n) fun k _ hk => ?_
  obtain ⟨x, hx, hz⟩ := h k hk
  rw [hx, ok_bind, store_eq (hvalid k) (by rwa [hsize]), Storage.store, hz]
  refine congrArg Except.ok (Storage.ext_of_loadComplex ?_ (hvalid _) rfl ?_ fun i hi => ?_)
  · exact Storage.storeComplex_isValid (hvalid k) k _
  · rw [Storage.size_storeComplex, hsize, hsize]
  · rw [Storage.size_storeComplex, hsize] at hi
    rw [hload (k + 1) i hi]
    by_cases hik : i = k
    · rw [hik, Storage.loadComplex_storeComplex_self (hvalid k) (by rwa [hsize]),
        if_pos (Nat.lt_succ_self k)]
      rfl
    · rw [Storage.loadComplex_storeComplex_of_ne hik, hload k i hi]
      exact congrArg dtype.element (if_congr (by omega) rfl rfl)

variable {a b : NumArray} {i : Nat}

theorem read_re_eq {s : Storage} (hi : i < s.size) : read s.re i = .ok (s.loadComplex i).re :=
  if_pos hi

theorem loadComplex_eq {s : Storage} (hs : s.IsValid) (hi : i < s.size) :
    loadComplex s i = .ok (s.loadComplex i) := by
  rw [loadComplex, load_eq hs hi, ← Storage.toComplex_load hs]
  rfl

theorem pairKernel_eq (ha : a.IsValid) (hb : b.IsValid) (op : BinaryOp) (hi : i < a.size)
    (hi' : i < b.size) : ∃ x, pairKernel op a b i = .ok x ∧
      x.toComplex = op.onElements (a.isComplex || b.isComplex) (a.storage.loadComplex i)
        (b.storage.loadComplex i) := by
  unfold pairKernel
  split
  · next hreal =>
      obtain ⟨hca, hcb⟩ := Bool.and_eq_true_iff.1 hreal
      rw [Bool.not_eq_true'] at hca hcb
      rw [hca, hcb]
      simp only [read_re_eq hi, read_re_eq hi']
      exact ⟨_, rfl, rfl⟩
  · next hcomplex =>
      have hc : (a.isComplex || b.isComplex) = true := by
        rw [← Bool.not_or, Bool.not_eq_true', Bool.not_eq_false] at hcomplex
        exact hcomplex
      rw [hc]
      simp only [loadComplex_eq ha.storage hi, loadComplex_eq hb.storage hi']
      exact ⟨_, rfl, rfl⟩

theorem scalarKernel_eq (ha : a.IsValid) (op : BinaryOp) (x : Scalar) (hi : i < a.size) :
    ∃ y, scalarKernel op a x i = .ok y ∧
      y.toComplex = op.onElements (a.isComplex || x.isComplex) (a.storage.loadComplex i)
        x.toComplex := by
  cases x with
  | complex z =>
      rw [Scalar.isComplex, Bool.or_true]
      simp only [scalarKernel, loadComplex_eq ha.storage hi]
      exact ⟨_, rfl, rfl⟩
  | real y =>
      rw [Scalar.isComplex, Bool.or_false]
      cases hc : a.isComplex with
      | true =>
          simp only [scalarKernel, hc, loadComplex_eq ha.storage hi]
          exact ⟨_, rfl, rfl⟩
      | false =>
          simp only [scalarKernel, hc, read_re_eq hi]
          exact ⟨_, rfl, rfl⟩

theorem combineScalar_eq (ha : a.IsValid) (op : BinaryOp) (x : Scalar) :
    combineScalar op a x = .ok (NumArray.combineScalar op a x) := by
  rw [combineScalar, storeEach_eq a.dtype _ fun k hk => scalarKernel_eq ha op x hk, ok_bind,
    NumArray.combineScalar, NumArray.mapElements]
  refine congrArg (fun values => Except.ok (NumArray.mk a.shape (.ofComplex values a.dtype))) ?_
  refine Array.ext (by simp [NumArray.size]) fun k hk hk' => ?_
  rw [Array.getElem_ofFn, Array.getElem_map, NumArray.getElem_toComplexArray]

/-- Arrays of two shapes are refused. -/
theorem combine_eq (ha : a.IsValid) (hb : b.IsValid) (op : BinaryOp) :
    combine op a b = lift (NumArray.combine op a b) := by
  unfold combine NumArray.combine
  split
  · rfl
  · next hab =>
      have hsize : b.size = a.size :=
        hb.size.trans ((congrArg Shape.numel (not_not.1 hab)).symm.trans ha.size.symm)
      rw [storeEach_eq a.dtype _ fun k hk => pairKernel_eq ha hb op hk (hsize.symm ▸ hk)]
      refine congrArg (fun values => Except.ok (NumArray.mk a.shape (.ofComplex values a.dtype))) ?_
      have hvalues : b.toComplexArray.size = a.size := (NumArray.size_toComplexArray b).trans hsize
      refine Array.ext (by simp [hvalues, NumArray.size]) fun k hk hk' => ?_
      rw [Array.getElem_ofFn, Array.getElem_zipWith, NumArray.getElem_toComplexArray,
        NumArray.getElem_toComplexArray]

end Checked

namespace NumArray

variable {a b : NumArray} {x : Scalar}

theorem exists_full (ha : a.IsValid) (dtype : DType) (x : Scalar) :
    ∃ b, full a.dims dtype x = .ok b ∧ b.IsValid ∧ b.shape = a.shape ∧ b.dtype = dtype ∧
      ∀ i < a.nrows, ∀ j < a.ncols, b.entry i j = dtype.element x.toComplex := by
  have hfull : full a.dims dtype x = .ok ⟨a.shape, .filled a.shape.numel dtype x⟩ := by
    rw [full, dims, Shape.ofDims_dims ha.shape]
    rfl
  exact ⟨_, hfull, full_isValid hfull, rfl, rfl, fun i hi j hj =>
    Storage.loadComplex_filled _ _ _ (Shape.offset_lt_numel hi hj)⟩

theorem combine_full (ha : a.IsValid) (op : BinaryOp) (hb : full a.dims x.dtype x = .ok b) :
    combine op a b = .ok (combineScalar op a x) := by
  obtain ⟨b', hb', hvalid, hshape, hdtype, hentry⟩ := exists_full ha x.dtype x
  obtain rfl : b' = b := Except.ok.inj (hb'.symm.trans hb)
  obtain ⟨c, hc, hcshape, hcdtype, hcentry⟩ := exists_combine ha hvalid hshape.symm op
  have hcomplex : b'.isComplex = x.isComplex := by
    rw [isComplex, hdtype, x.isComplex_dtype]
  rw [hc]
  refine congrArg Except.ok (ext_of_entry (combine_isValid ha hvalid hc) (mapElements_isValid ha _)
    hcdtype hcshape fun i hi j hj => ?_)
  rw [nrows, hcshape] at hi
  rw [ncols, hcshape] at hj
  rw [hcentry i hi j hj, hentry i hi j hj, x.element_dtype, hcomplex]
  exact (entry_combineScalar ha op x hi hj).symm

/-- A scalar operand is an array full of it. -/
theorem scalar_operand_eq_full (ha : a.IsValid) (op : BinaryOp) (x : Scalar) :
    ∃ b, full a.dims x.dtype x = .ok b ∧ combine op a b = .ok (combineScalar op a x) ∧
      Checked.combine op a b = .ok (combineScalar op a x) ∧
      Checked.combineScalar op a x = .ok (combineScalar op a x) := by
  obtain ⟨b, hb, hvalid, -⟩ := exists_full ha x.dtype x
  have hcombine := combine_full ha op hb
  refine ⟨b, hb, hcombine, ?_, Checked.combineScalar_eq ha op x⟩
  rw [Checked.combine_eq ha hvalid, hcombine]
  rfl

def wholeNumbers : NumArray := ⟨.vector 3, .ofElements #[(7 : Int32), -2, 0]⟩

theorem scalar_operand_eq_full_wholeNumbers :
    wholeNumbers.IsValid ∧ ∃ b, full [3] .c128 (.complex ⟨2, -1⟩) = .ok b ∧
      combine .div wholeNumbers b = .ok (combineScalar .div wholeNumbers (.complex ⟨2, -1⟩)) ∧
      Checked.combine .div wholeNumbers b
        = .ok (combineScalar .div wholeNumbers (.complex ⟨2, -1⟩)) ∧
      Checked.combineScalar .div wholeNumbers (.complex ⟨2, -1⟩)
        = .ok (combineScalar .div wholeNumbers (.complex ⟨2, -1⟩)) := by
  have hvalid : wholeNumbers.IsValid := isValid_mk_ofElements (by decide) rfl
  exact ⟨hvalid, scalar_operand_eq_full hvalid .div (.complex ⟨2, -1⟩)⟩

end NumArray

end DenseNumeric
