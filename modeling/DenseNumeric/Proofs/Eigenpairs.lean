import DenseNumeric.Proofs.SchurForm
import DenseNumeric.Proofs.Substitution

/-!
# Eigenpairs and their residuals

What is returned as an eigenvalue and an eigenvector is one, up to two small
residuals. One is that of substitution, where eigenvalues are too close to
each other. The other is what deflation has dropped on the way to the
triangular form. The basis is unitary and the vector has length one, so that
neither grows on the way back (`residual_le`).

Left eigenvectors are right ones of the transpose, of which the transposed
conjugate of the basis makes the same triangular form, transposed.
-/

namespace DenseNumeric

open Matrix WithLp
open scoped Matrix.Norms.Frobenius

variable {n : Nat}

/-! ## Residuals -/

namespace IsNearEigenvector

variable {a : Matrix (Fin n) (Fin n) ℂ} {i : Fin n} {least : ℝ} {x : Fin n → ℂ}

theorem ne_zero (h : IsNearEigenvector a i least x) : x ≠ 0 := by
  rintro rfl
  obtain ⟨k, hk⟩ := h.norm_eq_one
  simp at hk

theorem residual_le (h : IsNearEigenvector a i least x) (hleast : 0 ≤ least) :
    ‖toLp 2 (a *ᵥ x - a i i • x)‖ ≤ 2 * least * ‖toLp 2 x‖ := by
  refine (abs_le_of_sq_le_sq' ?_ (by positivity)).2
  rw [mul_pow, EuclideanSpace.norm_sq_eq, EuclideanSpace.norm_sq_eq, Finset.mul_sum]
  refine Finset.sum_le_sum fun j _ => ?_
  rw [← mul_pow]
  exact pow_le_pow_left₀ (norm_nonneg _) (h.norm_sub_le j) 2

theorem isGreatest_norm (h : IsNearEigenvector a i least x) :
    IsGreatest (Set.range fun j => ‖x j‖) 1 := by
  refine ⟨h.norm_eq_one, ?_⟩
  rintro - ⟨j, rfl⟩
  exact h.norm_le_one j

/-- Nothing is left over in a row in which the vector is zero. -/
theorem residual_eq_zero (h : IsNearEigenvector a i least x) {j : Fin n}
    (hj : x j = 0 ∨ j = i ∨ least ≤ ‖a j j - a i i‖) : (a *ᵥ x) j - a i i * x j = 0 := by
  rcases hj with hx | hj
  · have hle := h.norm_sub_le j
    rw [hx, norm_zero, mul_zero (2 * least), norm_le_zero_iff] at hle
    rwa [hx]
  · exact sub_eq_zero.2 (h.eq_of_le j hj)

end IsNearEigenvector

/-- A vector with a small residual in a unitary basis, scaled to length one,
has a small residual for a matrix that is near. -/
theorem residual_le {a b u : Matrix (Fin n) (Fin n) ℂ} (hu : u ∈ unitaryGroup (Fin n) ℂ)
    {δ ρ : ℝ} (ha : ‖a - u * b * uᴴ‖ ≤ δ) {x v : Fin n → ℂ} {z : ℂ} (hx : x ≠ 0)
    (hb : ‖toLp 2 (b *ᵥ x - z • x)‖ ≤ ρ * ‖toLp 2 x‖)
    (hv : v = (‖toLp 2 (u *ᵥ x)‖ : ℂ)⁻¹ • u *ᵥ x) :
    ‖toLp 2 v‖ = 1 ∧ ‖toLp 2 (a *ᵥ v - z • v)‖ ≤ ρ + δ := by
  have hpos : 0 < ‖toLp 2 x‖ := norm_pos_iff.2 fun h => hx (by simpa using h)
  rw [norm_unitary_mulVec hu] at hv
  set c : ℂ := (‖toLp 2 x‖ : ℂ)⁻¹ with hc
  have hcnorm : ‖c‖ = ‖toLp 2 x‖⁻¹ := by
    rw [hc, norm_inv, Complex.norm_real, norm_norm]
  have hunit : ‖toLp 2 v‖ = 1 := by
    rw [hv, toLp_smul, norm_smul, norm_unitary_mulVec hu, hcnorm, inv_mul_cancel₀ hpos.ne']
  have split : a *ᵥ v - z • v = c • u *ᵥ (b *ᵥ x - z • x) + (a - u * b * uᴴ) *ᵥ v := by
    have hback : uᴴ *ᵥ (u *ᵥ x) = x := by
      rw [mulVec_mulVec, conjTranspose_mul_unitary hu, one_mulVec]
    rw [sub_mulVec, hv]
    simp only [mulVec_smul, ← mulVec_mulVec, hback, mulVec_sub, smul_sub, smul_comm z c]
    abel
  refine ⟨hunit, ?_⟩
  calc ‖toLp 2 (a *ᵥ v - z • v)‖
      ≤ ‖toLp 2 (c • u *ᵥ (b *ᵥ x - z • x))‖ + ‖toLp 2 ((a - u * b * uᴴ) *ᵥ v)‖ := by
        rw [split, toLp_add]
        exact norm_add_le _ _
    _ ≤ ‖toLp 2 x‖⁻¹ * (ρ * ‖toLp 2 x‖) + δ * 1 := by
        refine add_le_add ?_ ?_
        · rw [toLp_smul, norm_smul, hcnorm, norm_unitary_mulVec hu]
          exact mul_le_mul_of_nonneg_left hb (by positivity)
        · refine (norm_mulVec_le _ _).trans ?_
          rw [hunit, mul_one, mul_one]
          exact ha
    _ = ρ + δ := by
        field_simp

/-! ## Lengths divided out -/

namespace DenseMatrix

theorem lengthOf_map_range (f : Nat → Complex ℝ) :
    lengthOf ((List.range n).map f) = ‖toLp 2 (fun k : Fin n => (f k).toC)‖ := by
  rw [lengthOf_eq_sqrt, EuclideanSpace.norm_eq, List.map_map, sum_map_range]
  rfl

theorem toCMatrix_normalizeColumns (a : DenseMatrix n n (Complex ℝ)) {i : Fin n}
    (h : a.toCMatrix.col i ≠ 0) :
    a.normalizeColumns.toCMatrix.col i
      = (‖toLp 2 (a.toCMatrix.col i)‖ : ℂ)⁻¹ • a.toCMatrix.col i := by
  have hlength : lengthOf ((List.range n).map (a · i)) = ‖toLp 2 (a.toCMatrix.col i)‖ :=
    lengthOf_map_range (a · i)
  have hpos : 0 < ‖toLp 2 (a.toCMatrix.col i)‖ := norm_pos_iff.2 fun h0 => h (by simpa using h0)
  ext k
  rw [col_apply, toCMatrix_apply, normalizeColumns, apply_of_lt _ k.isLt i.isLt,
    getD_ofFn _ _ i.isLt, hlength, if_pos hpos, Complex.toC_divReal, Pi.smul_apply, smul_eq_mul,
    div_eq_inv_mul]
  rfl

theorem toCMatrix_normalizeRows (a : DenseMatrix n n (Complex ℝ)) {i : Fin n}
    (h : a.toCMatrix.row i ≠ 0) :
    a.normalizeRows.toCMatrix.row i
      = (‖toLp 2 (a.toCMatrix.row i)‖ : ℂ)⁻¹ • a.toCMatrix.row i := by
  have hlength : lengthOf ((List.range n).map (a i)) = ‖toLp 2 (a.toCMatrix.row i)‖ :=
    lengthOf_map_range (a i)
  have hpos : 0 < ‖toLp 2 (a.toCMatrix.row i)‖ := norm_pos_iff.2 fun h0 => h (by simpa using h0)
  ext k
  rw [row_apply, toCMatrix_apply, normalizeRows, apply_of_lt _ i.isLt k.isLt,
    getD_ofFn _ _ i.isLt, hlength, if_pos hpos, Complex.toC_divReal, Pi.smul_apply, smul_eq_mul,
    div_eq_inv_mul]
  rfl

theorem col_rightEigenvectors {t : DenseMatrix n n (Complex ℝ)} (i : Fin n) :
    t.rightEigenvectors.toCMatrix.col i = place 0 (t.rightEigenvector i) := by
  ext k
  rw [col_apply, toCMatrix_apply, rightEigenvectors, apply_of_lt _ k.isLt i.isLt,
    getD_ofFn _ _ i.isLt, place, if_pos (Nat.zero_le _), Nat.sub_zero]

theorem row_leftEigenvectors {t : DenseMatrix n n (Complex ℝ)} (i : Fin n) :
    t.leftEigenvectors.toCMatrix.row i = place i (t.leftEigenvector i) := by
  ext k
  rw [row_apply, toCMatrix_apply, leftEigenvectors, apply_of_lt _ i.isLt k.isLt,
    getD_ofFn _ _ i.isLt, place, apply_ite Complex.toC, Complex.toC_zero]

/-! ## Eigenvectors of a triangular matrix -/

/-- The vectors that substitution finds for diagonal entry `i` of a triangular
matrix. They end, or begin, at coordinate `i`, their largest entry has length
one, and they are eigenvectors but for the rows, or columns, whose diagonal
entries are too near to entry `i` to divide by the difference. -/
theorem eigenvectors_of_isUpperTriangular {t : DenseMatrix n n (Complex ℝ)}
    (ht : t.IsUpperTriangular) (i : Fin n) :
    let s := (t i i).toC
    let least := max (Arith.epsilon * ‖s‖) (smallestGap n)
    let x := t.rightEigenvectors.toCMatrix.col i
    let y := t.leftEigenvectors.toCMatrix.row i
    ((∀ j, i < j → x j = 0) ∧ IsGreatest (Set.range fun j => ‖x j‖) 1 ∧
      ∀ j, (i ≤ j ∨ least ≤ ‖(t j j).toC - s‖ → (t.toCMatrix *ᵥ x) j - s * x j = 0) ∧
        ‖(t.toCMatrix *ᵥ x) j - s * x j‖ ≤ 2 * least * ‖x j‖) ∧
    (∀ j, j < i → y j = 0) ∧ IsGreatest (Set.range fun j => ‖y j‖) 1 ∧
      ∀ j, (j ≤ i ∨ least ≤ ‖(t j j).toC - s‖ → (y ᵥ* t.toCMatrix) j - s * y j = 0) ∧
        ‖(y ᵥ* t.toCMatrix) j - s * y j‖ ≤ 2 * least * ‖y j‖ := by
  intro s least x y
  obtain ⟨hlength, hright⟩ := rightEigenvector_spec ht i
  have hleft := (leftEigenvector_spec ht i).2
  rw [← col_rightEigenvectors] at hright
  rw [← row_leftEigenvectors] at hleft
  have hx : ∀ j, i < j → x j = 0 := by
    intro j hj
    show t.rightEigenvectors.toCMatrix.col i j = 0
    rw [col_rightEigenvectors]
    exact place_of_ge (by omega)
  have hy : ∀ j, j < i → y j = 0 := by
    intro j hj
    show t.leftEigenvectors.toCMatrix.row i j = 0
    rw [row_leftEigenvectors]
    exact place_of_lt _ hj
  refine ⟨⟨hx, hright.isGreatest_norm, fun j => ⟨fun hj => ?_, hright.norm_sub_le j⟩⟩,
    hy, hleft.isGreatest_norm, fun j => ?_⟩
  · refine hright.residual_eq_zero ?_
    rcases hj with hj | hj
    · rcases eq_or_lt_of_le hj with rfl | hj
      · exact .inr (.inl rfl)
      · exact .inl (hx j hj)
    · exact .inr (.inr hj)
  · rw [← mulVec_transpose]
    refine ⟨fun hj => hleft.residual_eq_zero ?_, hleft.norm_sub_le j⟩
    rcases hj with hj | hj
    · rcases eq_or_lt_of_le hj with rfl | hj
      · exact .inr (.inl rfl)
      · exact .inl (hy j hj)
    · exact .inr (.inr hj)

/-- A Jordan block, which has one eigenvector and one eigenvalue three times. -/
noncomputable def jordanThree : DenseMatrix 3 3 (Complex ℝ) :=
  ofFn fun i j => if j = i ∨ j = i + 1 then 1 else 0

theorem eigenvectors_of_isUpperTriangular_jordanThree :
    jordanThree.IsUpperTriangular ∧
      IsGreatest (Set.range fun j => ‖jordanThree.leftEigenvectors.toCMatrix.row 0 j‖) 1 ∧
      ∃ x, x = jordanThree.rightEigenvectors.toCMatrix.col 1 ∧ x 2 = 0 ∧
        IsGreatest (Set.range fun j => ‖x j‖) 1 ∧
        ∀ j, ‖(jordanThree.toCMatrix *ᵥ x) j - x j‖
          ≤ 2 * max Arith.epsilon (smallestGap 3) * ‖x j‖ := by
  have ht : jordanThree.IsUpperTriangular := by
    intro i j hi hji
    rw [jordanThree, apply_of_lt _ hi (hji.trans hi), if_neg (by omega)]
  have hone : (jordanThree 1 1).toC = 1 := by
    rw [jordanThree, apply_of_lt _ (by omega) (by omega), if_pos (.inl rfl), Complex.toC_one]
  obtain ⟨-, -, hleft, -⟩ := eigenvectors_of_isUpperTriangular ht 0
  obtain ⟨⟨hzero, hright, hresidual⟩, -⟩ := eigenvectors_of_isUpperTriangular ht 1
  refine ⟨ht, hleft, _, rfl, hzero 2 (by decide), hright, fun j => ?_⟩
  have hj := (hresidual j).2
  rwa [show (jordanThree (1 : Fin 3) (1 : Fin 3)).toC = 1 from hone, norm_one, mul_one,
    one_mul] at hj

end DenseMatrix

/-! ## Eigenvectors of a triangular form -/

namespace IsSchurForm

variable {a q : DenseMatrix n n (Complex ℝ)} {p : Similar n ℝ} {δ : ℝ}

theorem right_residual_le (h : IsSchurForm a p q δ) (hδ : 0 ≤ δ) (i : Fin n) :
    let v := (q.mul p.matrix.rightEigenvectors).normalizeColumns.toCMatrix.col i
    ‖toLp 2 v‖ = 1 ∧ ‖toLp 2 (a.toCMatrix *ᵥ v - p.matrix.toCMatrix i i • v)‖
      ≤ 2 * leastGap n (p.matrix i i) + (n - 1 : Nat) * δ := by
  have hx := (DenseMatrix.rightEigenvector_spec h.isUpperTriangular i).2
  have hcol : (q.mul p.matrix.rightEigenvectors).toCMatrix.col i
      = q.toCMatrix *ᵥ place 0 (p.matrix.rightEigenvector i) := by
    rw [DenseMatrix.toCMatrix_mul, ← DenseMatrix.col_rightEigenvectors]
    rfl
  refine residual_le h.unitary (h.norm_sub_le hδ) hx.ne_zero
    (hx.residual_le (leastGap_pos i.pos _).le) ?_
  rw [← hcol]
  refine DenseMatrix.toCMatrix_normalizeColumns _ ?_
  rw [hcol]
  exact unitary_mulVec_ne_zero h.unitary hx.ne_zero

theorem left_residual_le (h : IsSchurForm a p q δ) (hδ : 0 ≤ δ) (i : Fin n) :
    let w := (p.matrix.leftEigenvectors.mul q.adjoint).normalizeRows.toCMatrix.row i
    ‖toLp 2 w‖ = 1 ∧ ‖toLp 2 (w ᵥ* a.toCMatrix - p.matrix.toCMatrix i i • w)‖
      ≤ 2 * leastGap n (p.matrix i i) + (n - 1 : Nat) * δ := by
  have hy := (DenseMatrix.leftEigenvector_spec h.isUpperTriangular i).2
  have hu := transpose_mem_unitaryGroup (conjTranspose_mem_unitaryGroup h.unitary)
  have hrow : (p.matrix.leftEigenvectors.mul q.adjoint).toCMatrix.row i
      = (q.toCMatrixᴴ)ᵀ *ᵥ place i (p.matrix.leftEigenvector i) := by
    rw [DenseMatrix.toCMatrix_mul, DenseMatrix.toCMatrix_adjoint, mulVec_transpose,
      ← DenseMatrix.row_leftEigenvectors]
    rfl
  have hnear : ‖a.toCMatrixᵀ - (q.toCMatrixᴴ)ᵀ * p.matrix.toCMatrixᵀ * ((q.toCMatrixᴴ)ᵀ)ᴴ‖
      ≤ (n - 1 : Nat) * δ := by
    have hback : ((q.toCMatrixᴴ)ᵀ)ᴴ = q.toCMatrixᵀ := by
      ext i j
      simp
    rw [hback, Matrix.mul_assoc, ← transpose_mul, ← transpose_mul, ← transpose_sub,
      frobenius_norm_transpose]
    exact h.norm_sub_le hδ
  simp only [← mulVec_transpose]
  refine residual_le hu hnear hy.ne_zero (hy.residual_le (leastGap_pos i.pos _).le) ?_
  rw [← hrow]
  refine DenseMatrix.toCMatrix_normalizeRows _ ?_
  rw [hrow]
  exact unitary_mulVec_ne_zero hu hy.ne_zero

end IsSchurForm

/-! ## The eigensystem -/

namespace DenseMatrix

theorem getD_diagonal (a : DenseMatrix n n (Complex ℝ)) (i : Fin n) :
    a.diagonal.getD i 0 = a i i := by
  rw [diagonal, List.getD_eq_getElem _ _ (by simp), List.getElem_map, List.getElem_range]

theorem value_eigensystem (a : DenseMatrix n n (Complex ℝ)) (options : EigenOptions) (hn : n ≠ 1) :
    (a.eigensystem options).value
      = ((a.hessenberg (options.left || options.right)).triangularize
          options.maxIterations).value.map (eigensystemOf · options) := by
  rw [eigensystem, if_neg hn]
  simp only [Logged.andThen]
  cases ((a.hessenberg (options.left || options.right)).triangularize
      options.maxIterations).value with
  | error e => rfl
  | ok p => rfl

theorem eigensystem_eq_ok {a : DenseMatrix n n (Complex ℝ)} {options : EigenOptions}
    {s : Eigensystem n ℝ} (hn : n ≠ 1) (h : (a.eigensystem options).value = .ok s) :
    ∃ p, ((a.hessenberg (options.left || options.right)).triangularize
      options.maxIterations).value = .ok p ∧ s = eigensystemOf p options := by
  rw [value_eigensystem a options hn] at h
  cases hp : ((a.hessenberg (options.left || options.right)).triangularize
      options.maxIterations).value with
  | error e =>
      rw [hp] at h
      cases h
  | ok p =>
      rw [hp] at h
      exact ⟨p, rfl, (Except.ok.inj h).symm⟩

/-- A single number is its own eigenvalue. -/
theorem mulVec_eq_smul_of_eq_one (hn : n = 1) (a : Matrix (Fin n) (Fin n) ℂ) (i : Fin n)
    (v : Fin n → ℂ) : a *ᵥ v = a i i • v := by
  subst hn
  ext k
  obtain rfl : k = i := Subsingleton.elim k i
  rw [mulVec, dotProduct, Fin.sum_univ_one, Pi.smul_apply, smul_eq_mul, Subsingleton.elim 0 k]

theorem norm_col_identity (i : Fin n) :
    ‖toLp 2 ((identity : DenseMatrix n n (Complex ℝ)).toCMatrix.col i)‖ = 1 := by
  have hcol : (1 : Matrix (Fin n) (Fin n) ℂ).col i = Pi.single i 1 := by
    ext k
    rw [col_apply, one_eq_pi_single, Pi.single_comm]
  rw [toCMatrix_identity, hcol, PiLp.toLp_single, PiLp.norm_single, norm_one]

theorem norm_row_identity (i : Fin n) :
    ‖toLp 2 ((identity : DenseMatrix n n (Complex ℝ)).toCMatrix.row i)‖ = 1 := by
  have hrow : (1 : Matrix (Fin n) (Fin n) ℂ).row i = Pi.single i 1 := by
    ext k
    rw [row_apply, one_eq_pi_single]
  rw [toCMatrix_identity, hrow, PiLp.toLp_single, PiLp.norm_single, norm_one]

/-- Every eigenvalue that is returned comes with the vectors that were asked
for: of length one, and eigenvectors up to the differences of eigenvalues that
are not told apart, and the entries that the triangular form has dropped. -/
theorem eigensystem_residual_le (a : DenseMatrix n n (Complex ℝ)) (options : EigenOptions)
    (s : Eigensystem n ℝ) (h : (a.eigensystem options).value = .ok s) :
    s.values.length = n ∧
      (options.right = true → ∃ v, s.right = some v ∧ ∀ i : Fin n,
        ‖toLp 2 (v.toCMatrix.col i)‖ = 1 ∧
        ‖toLp 2 (a.toCMatrix *ᵥ v.toCMatrix.col i
            - (s.values.getD i 0).toC • v.toCMatrix.col i)‖
          ≤ 2 * max (Arith.epsilon * ‖(s.values.getD i 0).toC‖) (smallestGap n)
            + 2 * (n - 1 : Nat) * Arith.epsilon * ‖a.toCMatrix‖) ∧
      (options.left = true → ∃ w, s.left = some w ∧ ∀ i : Fin n,
        ‖toLp 2 (w.toCMatrix.row i)‖ = 1 ∧
        ‖toLp 2 (w.toCMatrix.row i ᵥ* a.toCMatrix
            - (s.values.getD i 0).toC • w.toCMatrix.row i)‖
          ≤ 2 * max (Arith.epsilon * ‖(s.values.getD i 0).toC‖) (smallestGap n)
            + 2 * (n - 1 : Nat) * Arith.epsilon * ‖a.toCMatrix‖) := by
  have hepsilon : (0 : ℝ) < Arith.epsilon := Arith.epsilon_pos
  have hδ : 0 ≤ 2 * Arith.epsilon * ‖a.toCMatrix‖ := by positivity
  have hbound : ∀ z : Complex ℝ,
      2 * leastGap n z + (n - 1 : Nat) * (2 * Arith.epsilon * ‖a.toCMatrix‖)
        = 2 * max (Arith.epsilon * ‖z.toC‖) (smallestGap n)
          + 2 * (n - 1 : Nat) * Arith.epsilon * ‖a.toCMatrix‖ := by
    intro z
    rw [leastGap]
    ring
  by_cases hn : n = 1
  · rw [eigensystem, if_pos hn] at h
    obtain rfl := Except.ok.inj h
    refine ⟨a.length_diagonal, fun hr => ⟨identity, if_pos hr, fun i => ⟨norm_col_identity i, ?_⟩⟩,
      fun hl => ⟨identity, if_pos hl, fun i => ⟨norm_row_identity i, ?_⟩⟩⟩
    · rw [getD_diagonal, mulVec_eq_smul_of_eq_one hn a.toCMatrix i, toCMatrix_apply, sub_self,
        toLp_zero, norm_zero, ← hbound]
      have := leastGap_pos i.pos (a i i)
      positivity
    · rw [getD_diagonal, ← mulVec_transpose, mulVec_eq_smul_of_eq_one hn a.toCMatrixᵀ i,
        transpose_apply, toCMatrix_apply, sub_self, toLp_zero, norm_zero, ← hbound]
      have := leastGap_pos i.pos (a i i)
      positivity
  · obtain ⟨p, hp, rfl⟩ := eigensystem_eq_ok hn h
    have form : (options.left || options.right) = true →
        ∃ q, IsSchurForm a p q (2 * Arith.epsilon * ‖a.toCMatrix‖) := by
      intro hvectors
      rw [hvectors] at hp
      exact a.exists_isSchurForm hp
    refine ⟨p.matrix.length_diagonal, fun hr => ?_, fun hl => ?_⟩
    · obtain ⟨q, hq⟩ := form (by rw [hr, Bool.or_true])
      refine ⟨(q.mul p.matrix.rightEigenvectors).normalizeColumns, ?_, fun i => ?_⟩
      · rw [eigensystemOf, hr, if_pos rfl, hq.basis_eq]
        rfl
      · rw [eigensystemOf, getD_diagonal, ← hbound]
        exact hq.right_residual_le hδ i
    · obtain ⟨q, hq⟩ := form (by rw [hl, Bool.true_or])
      refine ⟨(p.matrix.leftEigenvectors.mul q.adjoint).normalizeRows, ?_, fun i => ?_⟩
      · rw [eigensystemOf, hl, if_pos rfl, hq.basis_eq]
        rfl
      · rw [eigensystemOf, getD_diagonal, ← hbound]
        exact hq.left_residual_le hδ i

theorem eigensystem_residual_le_nearlyDefective :
    ∃ s, (nearlyDefective.eigensystem ⟨true, true, defaultLimit⟩).value = .ok s ∧
      s.values.length = 2 ∧
      (∃ v, s.right = some v ∧ ∀ i, ‖toLp 2 (v.toCMatrix.col i)‖ = 1) ∧
      ∃ w, s.left = some w ∧ ∀ i, ‖toLp 2 (w.toCMatrix.row i)‖ = 1 := by
  have hrun : (nearlyDefective.eigensystem ⟨true, true, defaultLimit⟩).value
      = .ok (eigensystemOf ⟨nearlyDefective.set 1 0 0, some .identity⟩
          ⟨true, true, defaultLimit⟩) := by
    rw [value_eigensystem _ _ (by decide)]
    exact congrArg (Except.map _) (schur_nearlyDefective defaultLimit)
  obtain ⟨hlen, hright, hleft⟩ := eigensystem_residual_le _ _ _ hrun
  obtain ⟨v, hv, hcols⟩ := hright rfl
  obtain ⟨w, hw, hrows⟩ := hleft rfl
  exact ⟨_, hrun, hlen, ⟨v, hv, fun i => (hcols i).1⟩, w, hw, fun i => (hrows i).1⟩

end DenseMatrix

end DenseNumeric
