import DenseNumeric.NumArray.Norm
import DenseNumeric.Proofs.Splits

/-!
# Norms along an axis

The two norms of a matrix that are largest sums are one norm, seen from either
axis: the lines of the matrix along the axis are measured one after another,
and a line is measured by the sizes of its elements from its first one on.

A transpose has the same lines along the other axis, element by element. So the
two folds meet the same numbers in the same order, and nothing has to be known
of the arithmetic, nor of how the size of an element is found: `lineNorm` is
written over any of either.
-/

namespace DenseNumeric

/-- The norm that measures the lines along an axis. -/
def NormOrder.ofAxis : Axis → NormOrder
  | .rows => .infinity
  | .cols => .one

namespace NumArray

variable {R : Type} [Arith R] {a : NumArray}

/-! ## Lines -/

/-- The sum of the sizes of the elements in line `k`. -/
def lineSum (size : Complex Float → R) (a : NumArray) (axis : Axis) (k : Nat) : R :=
  Arith.sumOver (List.range (a.extent axis.other)) fun l => size (a.entryOn axis k l)

/-- The largest of these sums. -/
def lineNorm (size : Complex Float → R) (a : NumArray) (axis : Axis) : R :=
  Arith.largestOver (List.range (a.extent axis)) (a.lineSum size axis)

theorem normWith_ofAxis (hm : a.shape.isMatrix = true) (axis : Axis) :
    a.normWith (.ofAxis axis) = .ok (a.lineNorm Complex.magnitude axis) := by
  have hshape := Shape.eq_matrix_of_isMatrix hm
  unfold normWith
  rw [hshape]
  cases axis <;> rfl

theorem normWith_ofAxis_of_vector (hv : a.shape.isMatrix = false) (axis : Axis) :
    a.normWith (.ofAxis axis)
      = .error (.invalidArgument (.normOfVector (.ofAxis axis) a.dims)) := by
  unfold normWith
  cases hs : a.shape with
  | matrix m n =>
      rw [hs] at hv
      cases hv
  | vector n => cases axis <;> rfl

/-! ## Transposes -/

section Transpose

variable (hm : a.shape.isMatrix = true)
include hm

theorem lineSum_transpose (size : Complex Float → R) {axis : Axis} {k : Nat}
    (hk : k < a.extent axis) :
    a.transpose.lineSum size axis.other k = a.lineSum size axis k := by
  unfold lineSum
  rw [extent_transpose hm, Axis.other_other]
  refine List.foldl_rel (r := Eq) rfl ?_
  rintro l hl sum _ rfl
  exact congrArg (sum + size ·) (entryOn_transpose hm hk (List.mem_range.1 hl))

theorem lineNorm_transpose (size : Complex Float → R) (axis : Axis) :
    a.transpose.lineNorm size axis.other = a.lineNorm size axis := by
  unfold lineNorm
  rw [extent_transpose hm, Axis.other_other]
  refine List.foldl_rel (r := Eq) rfl ?_
  rintro k hk largest _ rfl
  rw [lineSum_transpose hm size (List.mem_range.1 hk)]

end Transpose

theorem transpose_of_vector (hv : a.shape.isMatrix = false) : a.transpose = a := by
  unfold transpose
  cases hs : a.shape with
  | vector n => rfl
  | matrix m n =>
      rw [hs] at hv
      cases hv

theorem isMatrix_iff_ndim : a.shape.isMatrix = true ↔ a.ndim ≠ 1 := by
  unfold ndim
  cases a.shape with
  | vector n => exact iff_of_false Bool.false_ne_true (not_not.2 rfl)
  | matrix m n => exact iff_of_true rfl (Nat.succ_ne_self 1)

/-- The norm along one axis and the norm of the transpose along the other fail
together, which they do for vectors, or are the same number. They are so in
any arithmetic, and whatever is taken for the size of an element. -/
theorem normWith_transpose (a : NumArray) :
    (a.normWith .one).toOption = (a.transpose.normWith .infinity).toOption
      ∧ (a.normWith .infinity).toOption = (a.transpose.normWith .one).toOption
      ∧ (∀ axis, (∃ e, a.normWith (.ofAxis axis) = .error e) ↔ a.ndim = 1)
      ∧ (∀ axis, a.ndim ≠ 1 →
        a.normWith (.ofAxis axis) = .ok (a.lineNorm Complex.magnitude axis))
      ∧ ∀ (R : Type) [Arith R] (size : Complex Float → R) (axis : Axis), a.ndim ≠ 1 →
        a.transpose.lineNorm size axis.other = a.lineNorm size axis := by
  by_cases hm : a.shape.isMatrix = true
  · have norms (axis : Axis) := normWith_ofAxis hm axis
    have duals (axis : Axis) : a.transpose.normWith (.ofAxis axis.other)
        = .ok (a.lineNorm Complex.magnitude axis) := by
      rw [normWith_ofAxis (isMatrix_transpose hm), lineNorm_transpose hm]
    have hndim := isMatrix_iff_ndim.1 hm
    refine ⟨?_, ?_, fun axis => iff_of_false ?_ hndim, fun axis _ => norms axis,
      fun R _ size axis _ => lineNorm_transpose hm size axis⟩
    · exact congrArg Except.toOption ((norms .cols).trans (duals .cols).symm)
    · exact congrArg Except.toOption ((norms .rows).trans (duals .rows).symm)
    · rintro ⟨e, he⟩
      rw [norms] at he
      cases he
  · have hndim : a.ndim = 1 := not_not.1 (mt isMatrix_iff_ndim.2 hm)
    have hv : a.shape.isMatrix = false := Bool.eq_false_iff.2 hm
    have fails (axis : Axis) := normWith_ofAxis_of_vector hv axis
    have nothing (axis : Axis) : (a.normWith (.ofAxis axis)).toOption = none := by
      rw [fails]
      rfl
    rw [transpose_of_vector hv]
    exact ⟨(nothing .cols).trans (nothing .rows).symm, (nothing .rows).trans (nothing .cols).symm,
      fun axis => iff_of_true ⟨_, fails axis⟩ hndim, fun _ h => absurd hndim h,
      fun _ _ _ _ h => absurd hndim h⟩

theorem normWith_transpose_wideMatrix :
    wideMatrix.ndim ≠ 1 ∧
      ∃ x, wideMatrix.normWith .one = .ok x ∧ wideMatrix.transpose.normWith .infinity = .ok x := by
  have hndim : wideMatrix.ndim ≠ 1 := by decide
  obtain ⟨hdual, -, -, hnorm, -⟩ := normWith_transpose wideMatrix
  have hone : wideMatrix.normWith .one = .ok (wideMatrix.lineNorm Complex.magnitude .cols) :=
    hnorm .cols hndim
  refine ⟨hndim, _, hone, toOption_eq_some.1 ?_⟩
  rw [← hdual, hone]
  rfl

end NumArray

end DenseNumeric
