import Mathlib
import DenseNumeric.Proofs.Exact

/-!
# The shift of a sweep

The usual shift is an eigenvalue of the last two rows and columns of a block:
of the two, the one nearer to the last entry. Read over the reals it is exactly
that, for every block. What has to be seen is that the square root of the
discriminant is a square root on either half plane, the roots of zero and of
the negative axis included, and that dividing the block by its largest length
divides both eigenvalues, and their distances from the last entry, by the same
number.
-/

namespace DenseNumeric

/-! ## Square roots -/

namespace Complex

theorem sqrt_eq (z : Complex ℝ) : z.sqrt =
    if ‖z.toC‖ = 0 then 0
    else ⟨√((‖z.toC‖ + z.re) / 2), Arith.sign z.im * √((‖z.toC‖ - z.re) / 2)⟩ := by
  rw [← magnitude_eq_norm]
  unfold sqrt
  simp only [beq_iff_eq, Arith.sqrt_exact, Nat.cast_ofNat]

theorem sign_mul_abs (x : ℝ) : Arith.sign x * |x| = x := by
  show (if x < 0 then -1 else 1) * |x| = x
  split_ifs with h
  · rw [abs_of_neg h, neg_one_mul, neg_neg]
  · rw [abs_of_nonneg (not_lt.1 h), one_mul]

theorem sign_mul_sign (x : ℝ) : Arith.sign x * Arith.sign x = 1 := by
  show (if x < 0 then -1 else 1) * (if x < 0 then -1 else 1) = (1 : ℝ)
  split_ifs <;> norm_num

/-- The half-angle formulas give a square root of every number. On the negative
axis, where the imaginary part is zero, either sign of it would do. -/
theorem sqrt_mul_sqrt (z : Complex ℝ) : z.sqrt * z.sqrt = z := by
  rw [sqrt_eq]
  split_ifs with hz
  · rw [norm_eq_zero, toC_eq_zero] at hz
    rw [hz]
    exact Complex.ext (by simp) (by simp)
  · have hre : |z.re| ≤ ‖z.toC‖ := Complex.abs_re_le_norm z.toC
    obtain ⟨hlow, hhigh⟩ := abs_le.1 hre
    have hplus : 0 ≤ (‖z.toC‖ + z.re) / 2 := by linarith
    have hminus : 0 ≤ (‖z.toC‖ - z.re) / 2 := by linarith
    have hproduct : √((‖z.toC‖ + z.re) / 2) * √((‖z.toC‖ - z.re) / 2) = |z.im| / 2 := by
      have hsq : (‖z.toC‖ + z.re) / 2 * ((‖z.toC‖ - z.re) / 2) = (|z.im| / 2) ^ 2 := by
        have hnorm : ‖z.toC‖ ^ 2 = z.re * z.re + z.im * z.im := by
          rw [← magnitudeSq_eq]
          rfl
        rw [div_pow, sq_abs]
        linarith
      rw [← Real.sqrt_mul hplus, hsq, Real.sqrt_sq (by positivity)]
    refine Complex.ext ?_ ?_
    · have hsquares := sign_mul_sign z.im
      rw [re_mul]
      dsimp only
      rw [mul_mul_mul_comm, hsquares, one_mul, Real.mul_self_sqrt hplus, Real.mul_self_sqrt hminus]
      ring
    · have hsign := sign_mul_abs z.im
      rw [im_mul]
      dsimp only
      linear_combination 2 * Arith.sign z.im * hproduct + hsign

/-- A square root that is taken on the right half plane, and turned by a
quarter for numbers on the left one. -/
def halfPlaneRoot {R : Type} [Arith R] (z : Complex R) : Complex R :=
  if 0 < z.re then z.sqrt else (-z).sqrt * i

theorem halfPlaneRoot_mul_self (z : Complex ℝ) : z.halfPlaneRoot * z.halfPlaneRoot = z := by
  have hsq (w : Complex ℝ) : w.sqrt.toC * w.sqrt.toC = w.toC := by
    rw [← toC_mul, sqrt_mul_sqrt]
  have hi : (i : Complex ℝ).toC * (i : Complex ℝ).toC = -1 := Complex.I_mul_I
  unfold halfPlaneRoot
  split_ifs
  · exact sqrt_mul_sqrt z
  · refine toC_injective ?_
    rw [toC_mul, toC_mul, mul_mul_mul_comm, hsq, hi, toC_neg, neg_mul_neg, mul_one]

end Complex

/-! ## Eigenvalues of two by two blocks -/

/-- The eigenvalues of the block `[[p, b], [c, d]]`, by the midnight formula. -/
def blockEigenvalues {R : Type} [Arith R] (p b c d : Complex R) : Complex R × Complex R :=
  let half : R := 1 / (2 : Nat)
  let root := ((d - p) * (d - p) + (c * b).scale ((4 : Nat) : R)).halfPlaneRoot
  ((p + d + root).scale half, (p + d - root).scale half)

/-- The eigenvalue that is nearer to the last entry of the block. -/
def nearerEigenvalue {R : Type} [Arith R] (p b c d : Complex R) : Complex R :=
  let (first, second) := blockEigenvalues p b c d
  if (d - second).magnitude < (d - first).magnitude then second else first

theorem wilkinsonShift_eq_nearer {R : Type} [Arith R] {n : Nat} (a : DenseMatrix n n (Complex R))
    (k : Nat) :
    wilkinsonShift a (k + 2) =
      let p := a k k
      let b := a k (k + 1)
      let c := a (k + 1) k
      let d := a (k + 1) (k + 1)
      let scale := Arith.largestOver [p, b, c, d] Complex.taxicab
      if scale == 0 || !Arith.isFinite scale then d
      else (nearerEigenvalue (p.divReal scale) (b.divReal scale) (c.divReal scale)
        (d.divReal scale)).scale scale := rfl

/-- Two numbers with the sum and the product of the eigenvalues are the
eigenvalues, each as often as it is one. -/
theorem roots_charpoly_eq {p b c d x y : ℂ} (hsum : x + y = p + d)
    (hproduct : x * y = p * d - b * c) : !![p, b; c, d].charpoly.roots = {x, y} := by
  have hfactors : !![p, b; c, d].charpoly
      = (Polynomial.X - Polynomial.C x) * (Polynomial.X - Polynomial.C y) := by
    rw [Matrix.charpoly_fin_two, Matrix.trace_fin_two_of, Matrix.det_fin_two_of, ← hsum,
      ← hproduct, map_add, map_mul]
    ring
  have hne := mul_ne_zero (Polynomial.X_sub_C_ne_zero x) (Polynomial.X_sub_C_ne_zero y)
  rw [hfactors, Polynomial.roots_mul hne, Polynomial.roots_X_sub_C, Polynomial.roots_X_sub_C]
  rfl

theorem eq_mul_of_mem_roots {p b c d x : ℂ} (h : x ∈ !![p, b; c, d].charpoly.roots) :
    (p - x) * (d - x) = b * c := by
  have hroot := Polynomial.isRoot_of_mem_roots h
  rw [Matrix.charpoly_fin_two, Matrix.trace_fin_two_of, Matrix.det_fin_two_of] at hroot
  simp only [Polynomial.IsRoot.def, Polynomial.eval_add, Polynomial.eval_sub, Polynomial.eval_mul,
    Polynomial.eval_pow, Polynomial.eval_X, Polynomial.eval_C] at hroot
  linear_combination hroot

theorem blockEigenvalues_spec (p b c d : Complex ℝ) :
    let e := blockEigenvalues p b c d
    e.1.toC + e.2.toC = p.toC + d.toC ∧ e.1.toC * e.2.toC = p.toC * d.toC - b.toC * c.toC := by
  have hroot := congrArg Complex.toC (Complex.halfPlaneRoot_mul_self
    ((d - p) * (d - p) + (c * b).scale ((4 : Nat) : ℝ)))
  simp only [Complex.toC_mul, Complex.toC_add, Complex.toC_sub, Complex.toC_scale] at hroot
  simp only [blockEigenvalues, Complex.toC_scale, Complex.toC_add, Complex.toC_sub]
  push_cast at hroot ⊢
  constructor
  · ring
  · linear_combination (-1 / 4) * hroot

/-- The nearer one, beside the other one. -/
theorem exists_nearerEigenvalue (p b c d : Complex ℝ) :
    ∃ y : ℂ, (nearerEigenvalue p b c d).toC + y = p.toC + d.toC ∧
      (nearerEigenvalue p b c d).toC * y = p.toC * d.toC - b.toC * c.toC ∧
      ‖d.toC - (nearerEigenvalue p b c d).toC‖ ≤ ‖d.toC - y‖ := by
  obtain ⟨hsum, hproduct⟩ := blockEigenvalues_spec p b c d
  simp only [nearerEigenvalue, Complex.magnitude_eq_norm, Complex.toC_sub]
  split_ifs with h
  · exact ⟨_, (add_comm _ _).trans hsum, (mul_comm _ _).trans hproduct, h.le⟩
  · exact ⟨_, hsum, hproduct, not_lt.1 h⟩

/-- The length that a block is divided by is zero only for a block of zeros. -/
theorem largestOver_taxicab {p b c d : Complex ℝ}
    (h : Arith.largestOver [p, b, c, d] Complex.taxicab = 0) :
    p = 0 ∧ b = 0 ∧ c = 0 ∧ d = 0 := by
  simp only [Arith.largestOver, List.foldl_cons, List.foldl_nil, Arith.larger_eq_max] at h
  have hzero {z : Complex ℝ} (hz : z.taxicab ≤ 0) : z = 0 :=
    Complex.taxicab_eq_zero.1 (le_antisymm hz z.taxicab_nonneg)
  have hle := h.le
  simp only [max_le_iff, le_refl, true_and] at hle
  exact ⟨hzero hle.1.1.1, hzero hle.1.1.2, hzero hle.1.2, hzero hle.2⟩

/-! ## The shift -/

/-- A block that is divided by a length, and its nearer eigenvalue scaled back. -/
theorem exists_nearerEigenvalue_scale {s : ℝ} (hs : s ≠ 0) (p b c d : Complex ℝ) :
    let x := (nearerEigenvalue (p.divReal s) (b.divReal s) (c.divReal s) (d.divReal s)).scale s
    ∃ y : ℂ, x.toC + y = p.toC + d.toC ∧ x.toC * y = p.toC * d.toC - b.toC * c.toC ∧
      ‖d.toC - x.toC‖ ≤ ‖d.toC - y‖ := by
  intro x
  have hne : (s : ℂ) ≠ 0 := by exact_mod_cast hs
  obtain ⟨y, hsum, hproduct, hnear⟩ :=
    exists_nearerEigenvalue (p.divReal s) (b.divReal s) (c.divReal s) (d.divReal s)
  simp only [Complex.toC_divReal] at hsum hproduct hnear
  have hback (z : ℂ) : d.toC - z * s = (d.toC / s - z) * s := by
    rw [sub_mul, div_mul_cancel₀ _ hne]
  refine ⟨y * s, ?_, ?_, ?_⟩
  · rw [Complex.toC_scale, ← add_mul, hsum, add_mul, div_mul_cancel₀ _ hne,
      div_mul_cancel₀ _ hne]
  · rw [Complex.toC_scale, mul_mul_mul_comm, hproduct]
    field_simp
  · rw [Complex.toC_scale, hback, hback, norm_mul, norm_mul]
    exact mul_le_mul_of_nonneg_right hnear (norm_nonneg _)

variable {n : Nat}

/-- The shift and another number have the sum and the product of the
eigenvalues. A block of zeros has nothing else to offer than its last entry. -/
theorem exists_wilkinsonShift (a : DenseMatrix n n (Complex ℝ)) (k : Nat) :
    let p := (a k k).toC
    let b := (a k (k + 1)).toC
    let c := (a (k + 1) k).toC
    let d := (a (k + 1) (k + 1)).toC
    let μ := (wilkinsonShift a (k + 2)).toC
    ∃ μ', μ + μ' = p + d ∧ μ * μ' = p * d - b * c ∧ ‖d - μ‖ ≤ ‖d - μ'‖ := by
  intro p b c d μ
  set scale := Arith.largestOver [a k k, a k (k + 1), a (k + 1) k, a (k + 1) (k + 1)]
    Complex.taxicab with hscale
  have hshift := wilkinsonShift_eq_nearer a k
  simp only [← hscale, Arith.isFinite_exact, Bool.not_true, Bool.or_false, beq_iff_eq] at hshift
  by_cases hzero : scale = 0
  · obtain ⟨hp, hb, -, hd⟩ := largestOver_taxicab hzero
    rw [if_pos hzero, hd] at hshift
    refine ⟨0, ?_, ?_, ?_⟩ <;> simp [μ, p, b, d, hshift, hp, hb, hd]
  · rw [if_neg hzero] at hshift
    simp only [μ, hshift]
    exact exists_nearerEigenvalue_scale hzero _ _ _ _

/-- The shift is an eigenvalue of the last two rows and columns of the block,
and the other eigenvalue is no nearer to the last entry. Where the two are
equal, the other one is the same number. -/
theorem wilkinsonShift_isNearer (a : DenseMatrix n n (Complex ℝ)) (k : Nat) :
    let p := (a k k).toC
    let b := (a k (k + 1)).toC
    let c := (a (k + 1) k).toC
    let d := (a (k + 1) (k + 1)).toC
    let μ := (wilkinsonShift a (k + 2)).toC
    (p - μ) * (d - μ) = b * c ∧
      (∃ μ', !![p, b; c, d].charpoly.roots = {μ, μ'} ∧ ‖d - μ‖ ≤ ‖d - μ'‖) ∧
      ∀ z : Complex ℝ, z.sqrt * z.sqrt = z := by
  intro p b c d μ
  obtain ⟨μ', hsum, hproduct, hnear⟩ := exists_wilkinsonShift a k
  have hroots : !![p, b; c, d].charpoly.roots = {μ, μ'} := roots_charpoly_eq hsum hproduct
  refine ⟨eq_mul_of_mem_roots ?_, ⟨μ', hroots, hnear⟩, Complex.sqrt_mul_sqrt⟩
  rw [hroots]
  exact Multiset.mem_cons_self μ {μ'}

end DenseNumeric
