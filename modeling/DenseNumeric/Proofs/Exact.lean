import Mathlib
import DenseNumeric.LinearAlgebra.Eigensystem

/-!
# The exact reading

The algorithms are written over any arithmetic on reals. This module reads
them over the reals themselves: no operation rounds, and comparisons are those
of the ordered field. The constants of the double-precision format stay what
they are, as they are thresholds of the algorithms and not errors of the
arithmetic.

A pair of reals is then a complex number, and a working matrix a matrix of
complex numbers. `Complex.toC` and `DenseMatrix.toCMatrix` are these views;
they turn every operation of the library into the one of the same name over
`ℂ`, so that what is proved here on is linear algebra.
-/

namespace DenseNumeric

/-! ## The reals -/

/-- Exact arithmetic on the reals. The precision is that of double precision:
one is followed by `1 + 2 ^ (-52)`, and small numbers start at `2 ^ (-1022)`. -/
noncomputable instance exactArith : Arith ℝ where
  toInhabited := inferInstance
  toZero := inferInstance
  toOne := inferInstance
  toAdd := inferInstance
  toSub := inferInstance
  toMul := inferInstance
  toDiv := inferInstance
  toNeg := inferInstance
  toNatCast := inferInstance
  toBEq := inferInstance
  toLT := inferInstance
  toLE := inferInstance
  abs x := |x|
  sqrt := Real.sqrt
  hypot x y := √(x ^ 2 + y ^ 2)
  sign x := if x < 0 then -1 else 1
  isFinite _ := true
  epsilon := 2 ^ (-52 : ℤ)
  minPositive := 2 ^ (-1022 : ℤ)
  decLt := inferInstance
  decLe := inferInstance

/-! ## Sums -/

theorem foldl_add_eq_sum {α M : Type} [AddCommMonoid M] (xs : List α) (f : α → M) (x : M) :
    xs.foldl (fun acc a => acc + f a) x = x + (xs.map f).sum := by
  induction xs generalizing x with
  | nil => simp
  | cons a xs ih => rw [List.foldl_cons, ih, List.map_cons, List.sum_cons, add_assoc]

theorem sum_map_range {M : Type} [AddCommMonoid M] (n : Nat) (f : Nat → M) :
    ((List.range n).map f).sum = ∑ k : Fin n, f k := by
  rw [Fin.sum_univ_eq_sum_range, Finset.sum, Finset.range_val, Multiset.range, Multiset.map_coe,
    Multiset.sum_coe]

namespace Arith

theorem sqrt_exact (x : ℝ) : Arith.sqrt x = √x := rfl
theorem hypot_exact (x y : ℝ) : Arith.hypot x y = √(x ^ 2 + y ^ 2) := rfl
theorem isFinite_exact (x : ℝ) : Arith.isFinite x = true := rfl

theorem epsilon_pos : (0 : ℝ) < Arith.epsilon := by
  show (0 : ℝ) < 2 ^ (-52 : ℤ)
  positivity

theorem epsilon_le_one : (Arith.epsilon : ℝ) ≤ 1 :=
  zpow_le_one_of_nonpos₀ one_le_two (by norm_num)

theorem minPositive_pos : (0 : ℝ) < Arith.minPositive := by
  show (0 : ℝ) < 2 ^ (-1022 : ℤ)
  positivity

theorem larger_eq_max (x y : ℝ) : larger x y = max x y := by
  unfold larger
  split_ifs with h
  · exact (max_eq_right h.le).symm
  · exact (max_eq_left (not_lt.mp h)).symm
  · simp at *

theorem sumOver_eq_sum {α : Type} (xs : List α) (f : α → ℝ) : sumOver xs f = (xs.map f).sum := by
  rw [sumOver, foldl_add_eq_sum, zero_add]

end Arith

/-! ## Complex numbers -/

namespace Complex

/-- The complex number that a pair of reals stands for. -/
def toC (z : Complex ℝ) : ℂ := ⟨z.re, z.im⟩

@[simp] theorem re_toC (z : Complex ℝ) : z.toC.re = z.re := rfl
@[simp] theorem im_toC (z : Complex ℝ) : z.toC.im = z.im := rfl

@[simp] theorem toC_zero : (0 : Complex ℝ).toC = 0 := rfl
@[simp] theorem toC_one : (1 : Complex ℝ).toC = 1 := rfl
@[simp] theorem toC_ofReal (x : ℝ) : (ofReal x).toC = x := rfl
@[simp] theorem toC_add (z w : Complex ℝ) : (z + w).toC = z.toC + w.toC := rfl
@[simp] theorem toC_sub (z w : Complex ℝ) : (z - w).toC = z.toC - w.toC := rfl
@[simp] theorem toC_neg (z : Complex ℝ) : (-z).toC = -z.toC := rfl
@[simp] theorem toC_mul (z w : Complex ℝ) : (z * w).toC = z.toC * w.toC := rfl
@[simp] theorem toC_conj (z : Complex ℝ) : z.conj.toC = star z.toC := rfl

theorem toC_eq_iff {z : Complex ℝ} {w : ℂ} : z.toC = w ↔ z.re = w.re ∧ z.im = w.im := by
  refine ⟨fun h => h ▸ ⟨rfl, rfl⟩, fun ⟨hre, him⟩ => ?_⟩
  rw [toC, hre, him]

@[simp] theorem toC_scale (z : Complex ℝ) (x : ℝ) : (z.scale x).toC = z.toC * x := by
  simp [toC_eq_iff, scale]

@[simp] theorem toC_divReal (z : Complex ℝ) (x : ℝ) : (z.divReal x).toC = z.toC / x := by
  simp [toC_eq_iff, divReal, Complex.div_ofReal_re, Complex.div_ofReal_im]

theorem toC_injective : Function.Injective toC := by
  intro z w h
  exact Complex.ext (toC_eq_iff.1 h).1 (toC_eq_iff.1 h).2

@[simp] theorem toC_eq_zero {z : Complex ℝ} : z.toC = 0 ↔ z = 0 :=
  ⟨fun h => toC_injective (h.trans toC_zero.symm), fun h => h ▸ toC_zero⟩

theorem isZero_iff {z : Complex ℝ} : z.isZero = true ↔ z.toC = 0 := by
  simp [isZero, toC_eq_iff]

theorem toC_foldl_add {α : Type} (xs : List α) (f : α → Complex ℝ) (z : Complex ℝ) :
    (xs.foldl (fun acc a => acc + f a) z).toC = z.toC + (xs.map fun a => (f a).toC).sum := by
  induction xs generalizing z with
  | nil => simp
  | cons a xs ih => rw [List.foldl_cons, ih, toC_add, List.map_cons, List.sum_cons, add_assoc]

/-! ### Lengths -/

theorem magnitude_eq_norm (z : Complex ℝ) : z.magnitude = ‖z.toC‖ := by
  rw [Complex.norm_def, Complex.normSq_apply, magnitude, Arith.hypot_exact]
  simp [sq]

theorem magnitudeSq_eq (z : Complex ℝ) : z.magnitudeSq = ‖z.toC‖ ^ 2 := by
  rw [Complex.sq_norm, Complex.normSq_apply]
  rfl

theorem taxicab_eq (z : Complex ℝ) : z.taxicab = |z.re| + |z.im| := rfl

theorem taxicab_nonneg (z : Complex ℝ) : 0 ≤ z.taxicab :=
  add_nonneg (abs_nonneg _) (abs_nonneg _)

theorem taxicab_eq_zero {z : Complex ℝ} : z.taxicab = 0 ↔ z = 0 := by
  rw [taxicab_eq, add_eq_zero_iff_of_nonneg (abs_nonneg _) (abs_nonneg _), abs_eq_zero,
    abs_eq_zero, Complex.ext_iff]
  rfl

/-- The square of the taxicab length is at most twice that of the Euclidean one. -/
theorem taxicab_sq_le (z : Complex ℝ) : z.taxicab ^ 2 ≤ 2 * ‖z.toC‖ ^ 2 := by
  rw [taxicab_eq, Complex.sq_norm, Complex.normSq_apply, re_toC, im_toC]
  nlinarith [sq_abs z.re, sq_abs z.im, sq_nonneg (|z.re| - |z.im|)]

/-! ### Quotients -/

theorem div_eq (z w : Complex ℝ) : z / w =
    if w.taxicab = 0 then ⟨0 / 0, 0 / 0⟩
    else
      let c := w.re / w.taxicab
      let d := w.im / w.taxicab
      let denominator := (c * c + d * d) * w.taxicab
      ⟨(z.re * c + z.im * d) / denominator, (z.im * c - z.re * d) / denominator⟩ := by
  show (if (w.taxicab == 0) = true then _ else _) = _
  simp only [beq_iff_eq]

/-- Scaling the divisor first is of no consequence. -/
@[simp] theorem toC_div (z w : Complex ℝ) : (z / w).toC = z.toC / w.toC := by
  rw [toC_eq_iff, div_eq, Complex.div_re, Complex.div_im, Complex.normSq_apply]
  by_cases hw : w = 0
  · subst hw
    simp [taxicab_eq]
  · have hs : w.taxicab ≠ 0 := fun h => hw (taxicab_eq_zero.1 h)
    have hsq : w.re * w.re + w.im * w.im ≠ 0 := fun h => hw <| by
      rw [← toC_eq_zero, ← Complex.normSq_eq_zero, Complex.normSq_apply]
      exact h
    rw [if_neg hs]
    simp only [re_toC, im_toC]
    constructor <;> field_simp

end Complex

/-! ## Matrices -/

namespace DenseMatrix

section Views

variable {m n : Nat} {E : Type} [Inhabited E]

/-- The entries of a working matrix. -/
def toMatrix (a : DenseMatrix m n E) : Matrix (Fin m) (Fin n) E := fun i j => a i j

/-- A working matrix is no more than its entries. -/
theorem toMatrix_injective : Function.Injective (toMatrix : DenseMatrix m n E → _) := by
  intro a b h
  obtain ⟨a⟩ := a
  obtain ⟨b⟩ := b
  congr 1
  ext i hi j hj
  have := congrFun (congrFun h ⟨i, hi⟩) ⟨j, hj⟩
  simpa [toMatrix, get, hi, hj] using this

theorem toMatrix_ofFn (f : Nat → Nat → E) :
    (ofFn f : DenseMatrix m n E).toMatrix = Matrix.of fun (i : Fin m) (j : Fin n) => f i j := by
  ext i j
  simp [toMatrix, get_ofFn]

theorem apply_of_lt (f : Nat → Nat → E) {i j : Nat} (hi : i < m) (hj : j < n) :
    (ofFn f : DenseMatrix m n E) i j = f i j := by
  rw [get_ofFn, if_pos ⟨hi, hj⟩]

end Views

section Complex

variable {m n : Nat}

/-- The complex numbers in a working matrix. -/
noncomputable def toCMatrix (a : DenseMatrix m n (Complex ℝ)) : Matrix (Fin m) (Fin n) ℂ :=
  fun i j => (a i j).toC

@[simp] theorem toCMatrix_apply (a : DenseMatrix m n (Complex ℝ)) (i : Fin m) (j : Fin n) :
    a.toCMatrix i j = (a i j).toC := rfl

theorem toCMatrix_identity :
    (identity : DenseMatrix n n (Complex ℝ)).toCMatrix = 1 := by
  ext i j
  rw [Matrix.one_apply, toCMatrix_apply, identity, apply_of_lt _ i.isLt j.isLt]
  split_ifs with h h' h'
  · rfl
  · exact absurd (Fin.ext h) h'
  · exact absurd (congrArg _ h') h
  · rfl

theorem toCMatrix_adjoint (a : DenseMatrix n n (Complex ℝ)) :
    a.adjoint.toCMatrix = a.toCMatrix.conjTranspose := by
  ext i j
  simp [adjoint, get_ofFn]

theorem toCMatrix_mul (a b : DenseMatrix n n (Complex ℝ)) :
    (a.mul b).toCMatrix = a.toCMatrix * b.toCMatrix := by
  ext i j
  have skip : (fun acc k => if (a i k).isZero then acc else acc + a i k * b k j)
      = fun acc k => acc + a i k * b k j := by
    funext acc k
    split_ifs with h
    · exact Complex.toC_injective (by simp [Complex.isZero_iff.1 h])
    · rfl
  rw [toCMatrix_apply, mul, apply_of_lt _ i.isLt j.isLt, Matrix.mul_apply, skip,
    Complex.toC_foldl_add, sum_map_range]
  simp

end Complex

end DenseMatrix

/-! ## Lengths of lists -/

theorem foldl_hypot (zs : List (Complex ℝ)) {x : ℝ} (hx : 0 ≤ x) :
    zs.foldl (fun acc z => Arith.hypot acc z.magnitude) x
      = √(x ^ 2 + (zs.map fun z => ‖z.toC‖ ^ 2).sum) := by
  induction zs generalizing x with
  | nil => simp [Real.sqrt_sq hx]
  | cons z zs ih =>
      rw [List.foldl_cons, Arith.hypot_exact, ih (Real.sqrt_nonneg _), Real.sq_sqrt (by positivity),
        Complex.magnitude_eq_norm, List.map_cons, List.sum_cons, add_assoc]

theorem DenseMatrix.lengthOf_eq_sqrt (zs : List (Complex ℝ)) :
    DenseMatrix.lengthOf zs = √(zs.map fun z => ‖z.toC‖ ^ 2).sum := by
  rw [DenseMatrix.lengthOf, foldl_hypot zs le_rfl]
  simp

end DenseNumeric
