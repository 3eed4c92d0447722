import Mathlib

/-!
# Unitary matrices

Reflections and plane rotations as matrices, and what unitary matrices do to
lengths. The length of a matrix is the Frobenius norm, that of a vector the
Euclidean one; a unitary factor on either side changes neither.

A plane rotation is defined by what it does to rows (`mixRows`). Such a step
commutes with a product from the right, so it is the product with what it
makes of the identity (`givens`), and the columns follow by transposition.
-/

namespace DenseNumeric

open Matrix WithLp
open scoped Matrix.Norms.Frobenius

variable {ι κ : Type}

/-! ## Lengths -/

section Lengths

variable [Fintype ι] [Fintype κ]

theorem frobenius_sq (a : Matrix ι κ ℂ) : ‖a‖ ^ 2 = ∑ i, ∑ j, ‖a i j‖ ^ 2 := by
  rw [frobenius_norm_def, ← Real.sqrt_eq_rpow, Real.sq_sqrt (by positivity)]
  simp

theorem frobenius_sq_eq_trace (a : Matrix ι κ ℂ) : ((‖a‖ ^ 2 : ℝ) : ℂ) = (aᴴ * a).trace := by
  rw [frobenius_sq, Finset.sum_comm, trace]
  push_cast
  refine Finset.sum_congr rfl fun j _ => ?_
  rw [diag_apply, mul_apply]
  refine Finset.sum_congr rfl fun i _ => ?_
  rw [conjTranspose_apply, ← Complex.ofReal_pow, Complex.sq_norm, Complex.normSq_eq_conj_mul_self]
  rfl

theorem norm_sq_diag_pair_le [DecidableEq ι] (a : Matrix ι ι ℂ) {i k : ι} (hik : i ≠ k) :
    ‖a i i‖ ^ 2 + ‖a k k‖ ^ 2 ≤ ‖a‖ ^ 2 := by
  have row : ∀ j, ‖a j j‖ ^ 2 ≤ ∑ l, ‖a j l‖ ^ 2 := fun j =>
    Finset.single_le_sum (f := fun l => ‖a j l‖ ^ 2) (fun _ _ => by positivity) (Finset.mem_univ j)
  rw [frobenius_sq]
  calc ‖a i i‖ ^ 2 + ‖a k k‖ ^ 2
      ≤ ∑ j ∈ {i, k}, ∑ l, ‖a j l‖ ^ 2 := by
        rw [Finset.sum_pair hik]
        exact add_le_add (row i) (row k)
    _ ≤ ∑ j, ∑ l, ‖a j l‖ ^ 2 :=
        Finset.sum_le_sum_of_subset_of_nonneg (Finset.subset_univ _) fun _ _ _ => by positivity

theorem norm_mulVec_le (a : Matrix κ ι ℂ) (v : ι → ℂ) :
    ‖toLp 2 (a *ᵥ v)‖ ≤ ‖a‖ * ‖toLp 2 v‖ := by
  have := frobenius_norm_mul a (replicateCol Unit v)
  rwa [← replicateCol_mulVec, frobenius_norm_replicateCol, frobenius_norm_replicateCol] at this

variable [DecidableEq ι]

theorem norm_single [DecidableEq κ] (i : ι) (j : κ) (x : ℂ) : ‖single i j x‖ = ‖x‖ := by
  rw [← sq_eq_sq₀ (norm_nonneg _) (norm_nonneg _), frobenius_sq, Finset.sum_eq_single i,
    Finset.sum_eq_single j]
  · simp
  · intro k _ hk
    simp [hk.symm]
  · simp
  · intro k _ hk
    simp [hk.symm]
  · simp

theorem conjTranspose_mem_unitaryGroup {u : Matrix ι ι ℂ} (hu : u ∈ unitaryGroup ι ℂ) :
    uᴴ ∈ unitaryGroup ι ℂ := by
  rw [← star_eq_conjTranspose]
  exact Unitary.star_mem hu

theorem conjTranspose_mul_unitary {u : Matrix ι ι ℂ} (hu : u ∈ unitaryGroup ι ℂ) : uᴴ * u = 1 := by
  rw [← star_eq_conjTranspose, mem_unitaryGroup_iff'.1 hu]

theorem transpose_mem_unitaryGroup {u : Matrix ι ι ℂ} (hu : u ∈ unitaryGroup ι ℂ) :
    uᵀ ∈ unitaryGroup ι ℂ := by
  rw [mem_unitaryGroup_iff, star_eq_conjTranspose]
  calc uᵀ * uᵀᴴ
      = (uᴴ * u)ᵀ := by
        rw [transpose_mul]
        rfl
    _ = 1 := by rw [conjTranspose_mul_unitary hu, transpose_one]

theorem norm_unitary_mul {u : Matrix ι ι ℂ} (hu : u ∈ unitaryGroup ι ℂ) (a : Matrix ι κ ℂ) :
    ‖u * a‖ = ‖a‖ := by
  rw [← sq_eq_sq₀ (norm_nonneg _) (norm_nonneg _), ← Complex.ofReal_inj, frobenius_sq_eq_trace,
    frobenius_sq_eq_trace, conjTranspose_mul, Matrix.mul_assoc, ← Matrix.mul_assoc uᴴ,
    conjTranspose_mul_unitary hu, Matrix.one_mul]

theorem norm_mul_unitary {u : Matrix ι ι ℂ} (hu : u ∈ unitaryGroup ι ℂ) (a : Matrix κ ι ℂ) :
    ‖a * u‖ = ‖a‖ := by
  rw [← frobenius_norm_conjTranspose, conjTranspose_mul,
    norm_unitary_mul (conjTranspose_mem_unitaryGroup hu), frobenius_norm_conjTranspose]

/-- A unitary similarity keeps the length of a matrix. -/
theorem norm_conj_unitary {u : Matrix ι ι ℂ} (hu : u ∈ unitaryGroup ι ℂ) (a : Matrix ι ι ℂ) :
    ‖u * a * uᴴ‖ = ‖a‖ := by
  rw [norm_mul_unitary (conjTranspose_mem_unitaryGroup hu), norm_unitary_mul hu]

theorem norm_unitary_mulVec {u : Matrix ι ι ℂ} (hu : u ∈ unitaryGroup ι ℂ) (v : ι → ℂ) :
    ‖toLp 2 (u *ᵥ v)‖ = ‖toLp 2 v‖ := by
  have := norm_unitary_mul hu (replicateCol Unit v)
  rwa [← replicateCol_mulVec, frobenius_norm_replicateCol, frobenius_norm_replicateCol] at this

theorem unitary_mulVec_ne_zero {u : Matrix ι ι ℂ} (hu : u ∈ unitaryGroup ι ℂ) {v : ι → ℂ}
    (hv : v ≠ 0) : u *ᵥ v ≠ 0 := by
  intro h
  have hnorm := norm_unitary_mulVec hu v
  rw [h, toLp_zero, norm_zero, eq_comm, norm_eq_zero] at hnorm
  exact hv (by simpa using hnorm)

end Lengths

/-! ## Reflections -/

section Reflections

variable [DecidableEq ι]

/-- The reflection along a vector of squared length two. -/
def reflector (v : ι → ℂ) : Matrix ι ι ℂ := 1 - vecMulVec (star v) v

theorem conjTranspose_reflector (v : ι → ℂ) : (reflector v)ᴴ = reflector v := by
  ext i j
  simp [reflector, vecMulVec_apply, mul_comm, one_apply, apply_ite star, eq_comm]

variable [Fintype ι]

theorem reflector_mul_apply (v : ι → ℂ) (a : Matrix ι κ ℂ) (k : ι) (j : κ) :
    (reflector v * a) k j = a k j - star (v k) * ∑ l, v l * a l j := by
  rw [reflector, Matrix.sub_mul, Matrix.one_mul, Matrix.sub_apply, mul_apply, Finset.mul_sum]
  simp [vecMulVec_apply, mul_assoc]

theorem mul_reflector_apply (v : ι → ℂ) (a : Matrix κ ι ℂ) (j : κ) (k : ι) :
    (a * reflector v) j k = a j k - (∑ l, a j l * star (v l)) * v k := by
  rw [reflector, Matrix.mul_sub, Matrix.mul_one, Matrix.sub_apply, mul_apply, Finset.sum_mul]
  simp [vecMulVec_apply, mul_assoc]

theorem reflector_mul_self {v : ι → ℂ} (hv : v ⬝ᵥ star v = 2) :
    reflector v * reflector v = 1 := by
  have square : vecMulVec (star v) v * vecMulVec (star v) v = 2 • vecMulVec (star v) v := by
    rw [vecMulVec_mul_vecMulVec, hv, vecMulVec_smul, ofNat_smul_eq_nsmul]
  rw [reflector, Matrix.mul_sub, Matrix.mul_one, Matrix.sub_mul, Matrix.one_mul, square, two_smul]
  abel

theorem reflector_mem_unitaryGroup {v : ι → ℂ} (hv : v ⬝ᵥ star v = 2) :
    reflector v ∈ unitaryGroup ι ℂ := by
  rw [mem_unitaryGroup_iff, star_eq_conjTranspose, conjTranspose_reflector, reflector_mul_self hv]

end Reflections

/-! ## Plane rotations -/

section Rotations

variable [DecidableEq ι] (c s : ℂ) (p q : ι)

/-- Rows `p` and `q` combined as a plane rotation combines coordinates. -/
def mixRows (a : Matrix ι κ ℂ) : Matrix ι κ ℂ := of fun i k =>
  if i = p then star c * a p k + star s * a q k
  else if i = q then c * a q k - s * a p k
  else a i k

/-- Columns `p` and `q` combined in the same way. -/
def mixCols (a : Matrix κ ι ℂ) : Matrix κ ι ℂ := of fun k j =>
  if j = p then c * a k p + s * a k q
  else if j = q then star c * a k q - star s * a k p
  else a k j

/-- The plane rotation itself. -/
def givens : Matrix ι ι ℂ := mixRows c s p q 1

theorem mixCols_eq_conjTranspose (a : Matrix κ ι ℂ) :
    mixCols c s p q a = (mixRows c s p q aᴴ)ᴴ := by
  ext k j
  simp only [mixCols, mixRows, of_apply, conjTranspose_apply]
  split_ifs <;> simp

variable {c s p q} in
theorem mixRows_mixCols_one (hpq : p ≠ q) (h : starRingEnd ℂ c * c + starRingEnd ℂ s * s = 1) :
    mixRows c s p q (mixCols c s p q 1) = 1 := by
  ext i j
  simp only [mixRows, mixCols, of_apply, one_apply]
  by_cases hip : i = p
  · subst hip
    by_cases hji : j = i
    · subst hji
      simp only [if_true, if_neg hpq, if_neg hpq.symm, RCLike.star_def]
      linear_combination h
    · by_cases hjq : j = q
      · subst hjq
        simp [hpq, hpq.symm]
        ring
      · simp [hji, hjq, Ne.symm hji, Ne.symm hjq]
  · by_cases hiq : i = q
    · subst hiq
      by_cases hjp : j = p
      · subst hjp
        simp [hpq, hpq.symm]
        ring
      · by_cases hji : j = i
        · subst hji
          simp only [if_true, if_neg hjp, if_neg hpq, RCLike.star_def]
          linear_combination h
        · simp [hip, hjp, hji, Ne.symm hjp, Ne.symm hji]
    · by_cases hjp : j = p
      · simp [hjp, hip, hiq]
      · by_cases hjq : j = q
        · simp [hjq, hip, hiq]
        · simp [hjp, hjq, hip, hiq]

variable [Fintype ι]

theorem mixRows_mul (a : Matrix ι ι ℂ) (b : Matrix ι κ ℂ) :
    mixRows c s p q (a * b) = mixRows c s p q a * b := by
  ext i k
  simp only [mixRows, of_apply, mul_apply]
  split_ifs
  · simp [add_mul, Finset.sum_add_distrib, Finset.mul_sum, mul_assoc]
  · simp [sub_mul, Finset.sum_sub_distrib, Finset.mul_sum, mul_assoc]
  · rfl

theorem mixRows_eq_mul (a : Matrix ι κ ℂ) : mixRows c s p q a = givens c s p q * a := by
  rw [givens, ← mixRows_mul, Matrix.one_mul]

theorem mixCols_eq_mul (a : Matrix κ ι ℂ) : mixCols c s p q a = a * (givens c s p q)ᴴ := by
  rw [mixCols_eq_conjTranspose, mixRows_eq_mul, conjTranspose_mul, conjTranspose_conjTranspose]

variable {c s p q}

theorem givens_mem_unitaryGroup (hpq : p ≠ q) (h : ‖c‖ ^ 2 + ‖s‖ ^ 2 = 1) :
    givens c s p q ∈ unitaryGroup ι ℂ := by
  have hcs : starRingEnd ℂ c * c + starRingEnd ℂ s * s = 1 := by
    rw [← Complex.normSq_eq_conj_mul_self, ← Complex.normSq_eq_conj_mul_self, ← Complex.sq_norm,
      ← Complex.sq_norm]
    exact_mod_cast h
  rw [mem_unitaryGroup_iff, star_eq_conjTranspose, ← mixRows_eq_mul,
    ← Matrix.one_mul (givens c s p q)ᴴ, ← mixCols_eq_mul, mixRows_mixCols_one hpq hcs]

end Rotations

end DenseNumeric
