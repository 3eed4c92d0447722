import DenseNumeric.Proofs.Sweep

/-!
# Sweeps of the whole matrix

The sweep as it is without bounds: every rotation combines two whole rows and
two whole columns, and no entry is written but by a rotation. In exact
arithmetic it is the sweep that the library makes, bulge by bulge
(`sweepUntil_eq_fullSweepUntil`), as long as the block is cut off from the
rest.

The rotations of a block multiply to a unitary matrix that is the identity
outside of the block, as matrices of this kind are closed under products
(`actingWithin`).
-/

namespace DenseNumeric

open Matrix

variable {R : Type} [Arith R] {n : Nat}

/-! ## Matrices that act on a block -/

/-- The matrices that are the identity outside the rows and columns from `low`
to before `high`. -/
def actingWithin (n low high : Nat) : Submonoid (Matrix (Fin n) (Fin n) ℂ) where
  carrier := {u | ∀ i j : Fin n, ¬(low ≤ i ∧ i < high ∧ low ≤ j ∧ j < high) →
    u i j = (1 : Matrix (Fin n) (Fin n) ℂ) i j}
  one_mem' _ _ _ := rfl
  mul_mem' := by
    intro u w hu hw i j hout
    by_cases hi : low ≤ i ∧ i < high
    · -- then column `j` of `w` is that of the identity
      have hj : ¬(low ≤ j ∧ j < high) := fun hj => hout ⟨hi.1, hi.2, hj.1, hj.2⟩
      have hcolumn : ∀ k, w k j = (1 : Matrix (Fin n) (Fin n) ℂ) k j :=
        fun k => hw k j fun h => hj ⟨h.2.2.1, h.2.2.2⟩
      calc (u * w) i j
          = (u * (1 : Matrix (Fin n) (Fin n) ℂ)) i j := by simp only [mul_apply, hcolumn]
        _ = u i j := by rw [Matrix.mul_one]
        _ = (1 : Matrix (Fin n) (Fin n) ℂ) i j := hu i j hout
    · have hrow : ∀ k, u i k = (1 : Matrix (Fin n) (Fin n) ℂ) i k :=
        fun k => hu i k fun h => hi ⟨h.1, h.2.1⟩
      calc (u * w) i j
          = ((1 : Matrix (Fin n) (Fin n) ℂ) * w) i j := by simp only [mul_apply, hrow]
        _ = w i j := by rw [Matrix.one_mul]
        _ = (1 : Matrix (Fin n) (Fin n) ℂ) i j := hw i j hout

theorem Rotation.toMatrix_mem_actingWithin (g : Rotation ℝ) {r low high : Nat} (hlow : low ≤ r)
    (hhigh : r + 1 < high) : g.toMatrix r ∈ actingWithin n low high := by
  intro i j hout
  rw [toMatrix, of_apply, if_neg (by omega), if_neg (by omega), if_neg (by omega),
    if_neg (by omega)]

/-! ## The sweep without bounds -/

namespace Similar

/-- Takes the bulge out of column `j` by a rotation of whole rows and columns. -/
def fullChase (p : Similar n R) (j : Nat) : Similar n R :=
  p.fullRotate (p.bulgeRotation j) (j + 1)

/-- A sweep without bounds, as far as column `j`. -/
def fullSweepUntil (p : Similar n R) (low : Nat) (shift : Complex R) (j : Nat) : Similar n R :=
  (List.range' low (j - low)).foldl fullChase (p.fullRotate (p.shiftRotation low shift) low)

/-- The sweep of coordinates `low` to before `high` in the whole matrix. -/
def fullSweep (p : Similar n R) (low high : Nat) (shift : Complex R) : Similar n R :=
  p.fullSweepUntil low shift (high - 2)

theorem fullSweepUntil_low (p : Similar n R) (low : Nat) (shift : Complex R) :
    p.fullSweepUntil low shift low = p.fullRotate (p.shiftRotation low shift) low := by
  rw [fullSweepUntil, Nat.sub_self]
  rfl

theorem fullSweepUntil_succ (p : Similar n R) {low j : Nat} (h : low ≤ j) (shift : Complex R) :
    p.fullSweepUntil low shift (j + 1) = (p.fullSweepUntil low shift j).fullChase j := by
  rw [fullSweepUntil, range'_succ_of_le h, List.foldl_append]
  rfl

/-- As long as the bulge is in the block, the bounds are of no consequence. -/
theorem sweepUntil_eq_fullSweepUntil {p : Similar n ℝ} {low high j : Nat}
    (hp : p.matrix.IsHessenberg) (hlow : low ≤ j) (hj : j + 2 ≤ high) (hhigh : high ≤ n)
    (htop : p.IsCutAt low) (hcut : p.IsCutAt high) (shift : Complex ℝ) :
    p.sweepUntil low high shift j = p.fullSweepUntil low shift j := by
  induction j, hlow using Nat.le_induction with
  | base => rw [sweepUntil_low, fullSweepUntil_low, rotate_eq_fullRotate hp hj hhigh htop hcut]
  | succ j hlow ih =>
      obtain ⟨hbulge, hcut', -⟩ := sweepUntil_spec hp hlow (by omega) hhigh htop hcut shift
      rw [sweepUntil_succ p shift hlow, chase_eq_fullRotate hbulge (by omega) hhigh hcut',
        fullSweepUntil_succ p hlow, ← ih (by omega), fullChase]

theorem sweep_isCutAt_low {p : Similar n ℝ} {low high : Nat} (hblock : low + 2 ≤ high)
    (htop : p.IsCutAt low) (shift : Complex ℝ) : (p.sweep low high shift).IsCutAt low := by
  intro k hk hkn
  rw [sweep_subdiagonal p hblock hkn (by omega)]
  exact htop k hk hkn

/-- A sweep over a block that is cut off above and below is the sweep of the
whole matrix. It multiplies the matrix by its rotations from the left, and
matrix and basis by their adjoints from the right; the rotations are unitary
and leave what is outside of the block alone. The form of the matrix and both
cuts stay. -/
theorem sweep_eq_fullSweep {p : Similar n ℝ} {low high : Nat} (hp : p.matrix.IsHessenberg)
    (hblock : low + 2 ≤ high) (hhigh : high ≤ n) (htop : p.IsCutAt low) (hcut : p.IsCutAt high)
    (shift : Complex ℝ) :
    let t := p.sweep low high shift
    let g := fun r => ((p.sweepRotation low high shift r).toMatrix r : Matrix (Fin n) (Fin n) ℂ)
    let u := ((List.range' low (high - 1 - low)).reverse.map g).prod
    t = p.fullSweep low high shift ∧
      (∀ r, low ≤ r → r + 1 < high →
        g r ∈ unitaryGroup (Fin n) ℂ ∧ g r ∈ actingWithin n low high) ∧
      u ∈ unitaryGroup (Fin n) ℂ ∧ u ∈ actingWithin n low high ∧
      t.matrix.toCMatrix = u * p.matrix.toCMatrix * uᴴ ∧
      t.basis.map DenseMatrix.toCMatrix = p.basis.map (fun q => q.toCMatrix * uᴴ) ∧
      t.matrix.IsHessenberg ∧ t.IsCutAt low ∧ t.IsCutAt high := by
  intro t g u
  obtain ⟨hmatrix, hbasis⟩ := sweep_isTransformedBy hp hblock hhigh htop hcut shift
  have hunitary : ∀ r, r + 1 < high → g r ∈ unitaryGroup (Fin n) ℂ :=
    fun r hr => p.toMatrix_sweepRotation_mem_unitaryGroup shift (by omega)
  have hwithin : ∀ r, low ≤ r → r + 1 < high → g r ∈ actingWithin n low high :=
    fun r hlow hr => Rotation.toMatrix_mem_actingWithin _ hlow hr
  refine ⟨?_, fun r hlow hr => ⟨hunitary r hr, hwithin r hlow hr⟩, ?_, ?_, hmatrix, hbasis,
    sweep_isHessenberg hblock hp shift, sweep_isCutAt_low hblock htop shift, ?_⟩
  · exact sweepUntil_eq_fullSweepUntil hp (by omega) (by omega) hhigh htop hcut shift
  · exact p.sweepFactor_mem shift fun r _ hr => hunitary r (by omega)
  · exact p.sweepFactor_mem shift fun r hlow hr => hwithin r hlow (by omega)
  · exact (sweepUntil_spec hp (by omega) (by omega) hhigh htop hcut shift).2.1

/-- Ones on and above the subdiagonal, but for two zeros that cut off a block
of three rows in the middle. -/
noncomputable def middleBlock : Similar 5 ℝ :=
  ⟨.ofFn fun i j => if j + 1 < i ∨ j + 1 = i ∧ (i = 1 ∨ i = 4) then 0 else 1, some .identity⟩

theorem middleBlock_apply {i j : Nat} (hi : i < 5) (hj : j < 5) : middleBlock.matrix i j
    = if j + 1 < i ∨ j + 1 = i ∧ (i = 1 ∨ i = 4) then 0 else 1 := by
  rw [middleBlock, DenseMatrix.apply_of_lt _ hi hj]

theorem sweep_eq_fullSweep_middleBlock :
    middleBlock.matrix.IsHessenberg ∧ middleBlock.IsCutAt 1 ∧ middleBlock.IsCutAt 4 ∧
      let t := middleBlock.sweep 1 4 1
      let g := fun r =>
        ((middleBlock.sweepRotation 1 4 1 r).toMatrix r : Matrix (Fin 5) (Fin 5) ℂ)
      t = middleBlock.fullSweep 1 4 1 ∧
        g 2 * g 1 ∈ unitaryGroup (Fin 5) ℂ ∧ g 2 * g 1 ∈ actingWithin 5 1 4 ∧
        t.matrix.toCMatrix = g 2 * g 1 * middleBlock.matrix.toCMatrix * (g 2 * g 1)ᴴ ∧
        t.basis.map DenseMatrix.toCMatrix = some (g 2 * g 1)ᴴ ∧
        t.matrix.IsHessenberg ∧ t.matrix 1 0 = 0 ∧ t.matrix 4 3 = 0 := by
  have hform : middleBlock.matrix.IsHessenberg := by
    intro i k hi hk
    rw [middleBlock_apply hi (by omega), if_pos (.inl hk)]
  have htop : middleBlock.IsCutAt 1 := by
    intro k hk hkn
    rw [middleBlock_apply hkn (by omega), if_pos (by omega)]
  have hcut : middleBlock.IsCutAt 4 := by
    intro k hk hkn
    rw [middleBlock_apply hkn (by omega), if_pos (by omega)]
  obtain ⟨hfull, -, hunitary, hwithin, hmatrix, hbasis, hform', htop', hcut'⟩ :=
    sweep_eq_fullSweep hform (by decide) (by decide) htop hcut 1
  have hproduct : ∀ g : Nat → Matrix (Fin 5) (Fin 5) ℂ,
      ((List.range' 1 (4 - 1 - 1)).reverse.map g).prod = g 2 * g 1 := by
    intro g
    simp [List.range']
  rw [hproduct] at hunitary hwithin hmatrix hbasis
  refine ⟨hform, htop, hcut, hfull, hunitary, hwithin, hmatrix, ?_, hform', htop' 0 rfl (by decide),
    hcut' 3 rfl (by decide)⟩
  rw [hbasis]
  simp [middleBlock, DenseMatrix.toCMatrix_identity]

end Similar

end DenseNumeric
