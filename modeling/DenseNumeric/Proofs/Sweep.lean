import DenseNumeric.Proofs.Exact
import DenseNumeric.Proofs.Unitary
import DenseNumeric.Proofs.ZeroPattern

/-!
# Sweeps, exactly

A sweep is a unitary similarity of the whole matrix, although it rotates rows
and columns within bounds only. The bounds are those of the block, and of the
bulge in it: what lies outside of them is zero, so that rotating it too would
be of no consequence.

This needs the block to be decoupled from the rest, by a zero before its first
column and a zero below its last one. The zeros are those that deflation
leaves.

So every rotation of a sweep is one of whole rows and columns
(`rotate_eq_fullRotate`, `chase_eq_fullRotate`), which is a product with a
matrix on either side. What a sweep does is the product of these matrices
(`sweep_isTransformedBy`), and each of them is unitary.
-/

namespace DenseNumeric

open Matrix

variable {R : Type} [Arith R] {n : Nat}

/-! ## Rotations as matrices -/

namespace Rotation

/-- The rotation made from a pair is one, and moves the pair onto its first
coordinate. -/
theorem ofPair_spec (x y : Complex ℝ) :
    let g := ofPair x y
    ‖g.c.toC‖ ^ 2 + ‖g.s.toC‖ ^ 2 = 1 ∧
      star g.c.toC * x.toC + star g.s.toC * y.toC = g.length ∧
      g.c.toC * y.toC - g.s.toC * x.toC = 0 := by
  have hlen : Arith.hypot x.magnitude y.magnitude = √(‖x.toC‖ ^ 2 + ‖y.toC‖ ^ 2) := by
    rw [Arith.hypot_exact, Complex.magnitude_eq_norm, Complex.magnitude_eq_norm]
  have hsq : 0 ≤ ‖x.toC‖ ^ 2 + ‖y.toC‖ ^ 2 := by positivity
  simp only [ofPair, hlen, beq_iff_eq]
  split_ifs with h
  · rw [Real.sqrt_eq_zero hsq] at h
    have hx : x.toC = 0 := norm_eq_zero.1 (by nlinarith [norm_nonneg x.toC, norm_nonneg y.toC])
    have hy : y.toC = 0 := norm_eq_zero.1 (by nlinarith [norm_nonneg x.toC, norm_nonneg y.toC])
    simp [hx, hy]
  · have hl : ((√(‖x.toC‖ ^ 2 + ‖y.toC‖ ^ 2) : ℝ) : ℂ) ≠ 0 := by exact_mod_cast h
    have hl2 : ((√(‖x.toC‖ ^ 2 + ‖y.toC‖ ^ 2) : ℝ) : ℂ) ^ 2 = ‖x.toC‖ ^ 2 + ‖y.toC‖ ^ 2 := by
      rw [← Complex.ofReal_pow, Real.sq_sqrt hsq]
      push_cast
      rfl
    refine ⟨?_, ?_, ?_⟩
    · rw [Complex.toC_divReal, Complex.toC_divReal, norm_div, norm_div, div_pow, div_pow, ← add_div,
        Complex.norm_real, Real.norm_eq_abs, sq_abs, Real.sq_sqrt hsq]
      exact div_self fun h0 => h (by rw [h0, Real.sqrt_zero])
    · simp only [Complex.toC_divReal, star_div₀, RCLike.star_def, Complex.conj_ofReal]
      field_simp
      rw [hl2, Complex.conj_mul', Complex.conj_mul']
    · simp only [Complex.toC_divReal]
      ring

/-- Where both rows are zero, rotating them is of no consequence. -/
theorem rotateRows_eq_of_zeros (g : Rotation ℝ) {r first : Nat} {a : DenseMatrix n n (Complex ℝ)}
    (hout : ∀ k, k < first → a r k = 0 ∧ a (r + 1) k = 0) :
    g.rotateRows r first a = g.rotateRows r 0 a := by
  refine DenseMatrix.ext_of_get fun i k hi hk => ?_
  rw [rotateRows_apply _ _ _ _ hi hk, rotateRows_apply _ _ _ _ hi hk, if_pos (Nat.zero_le k)]
  by_cases hfirst : first ≤ k
  · rw [if_pos hfirst]
  · obtain ⟨hx, hy⟩ := hout k (by omega)
    rw [if_neg hfirst, hx, hy]
    split_ifs with hi hi'
    · rw [hi, hx]
      exact Complex.toC_injective (by simp)
    · rw [hi', hy]
      exact Complex.toC_injective (by simp)
    · rfl

/-- Where both columns are zero, rotating them is of no consequence. -/
theorem rotateCols_eq_of_zeros (g : Rotation ℝ) {r last : Nat} {a : DenseMatrix n n (Complex ℝ)}
    (hout : ∀ i, last ≤ i → i < n → a i r = 0 ∧ a i (r + 1) = 0) :
    g.rotateCols r last a = g.rotateCols r n a := by
  refine DenseMatrix.ext_of_get fun i j hi hj => ?_
  rw [rotateCols_apply _ _ _ _ hi hj, rotateCols_apply _ _ _ _ hi hj, if_pos hi]
  by_cases hlast : i < last
  · rw [if_pos hlast]
  · obtain ⟨hx, hy⟩ := hout i (by omega) hi
    rw [if_neg hlast, hx, hy]
    split_ifs with hj hj'
    · rw [hj, hx]
      exact Complex.toC_injective (by simp)
    · rw [hj', hy]
      exact Complex.toC_injective (by simp)
    · rfl

/-- The rotation of coordinates `r` and `r + 1` as a matrix. It is the identity
in all other rows and columns. -/
noncomputable def toMatrix (g : Rotation ℝ) (r : Nat) : Matrix (Fin n) (Fin n) ℂ :=
  of fun i j =>
    if (i : Nat) = r ∧ (j : Nat) = r then star g.c.toC
    else if (i : Nat) = r ∧ (j : Nat) = r + 1 then star g.s.toC
    else if (i : Nat) = r + 1 ∧ (j : Nat) = r then -g.s.toC
    else if (i : Nat) = r + 1 ∧ (j : Nat) = r + 1 then g.c.toC
    else (1 : Matrix (Fin n) (Fin n) ℂ) i j

theorem toMatrix_eq_givens (g : Rotation ℝ) {r : Nat} (hr : r + 1 < n) :
    g.toMatrix r = givens g.c.toC g.s.toC ⟨r, Nat.lt_of_succ_lt hr⟩ ⟨r + 1, hr⟩ := by
  ext i j
  simp only [toMatrix, givens, mixRows, of_apply, one_apply, Fin.ext_iff]
  by_cases hi : (i : Nat) = r
  · by_cases hj : (j : Nat) = r <;> by_cases hj' : (j : Nat) = r + 1 <;>
      simp [hi, hj, hj', eq_comm (a := r), eq_comm (a := r + 1)]
  · by_cases hi' : (i : Nat) = r + 1
    · by_cases hj : (j : Nat) = r <;> by_cases hj' : (j : Nat) = r + 1 <;>
        simp [hi', hj, hj', eq_comm (a := r), eq_comm (a := r + 1)]
    · simp [hi, hi']

theorem toMatrix_mem_unitaryGroup {g : Rotation ℝ} {r : Nat} (hr : r + 1 < n)
    (hg : ‖g.c.toC‖ ^ 2 + ‖g.s.toC‖ ^ 2 = 1) :
    (g.toMatrix r : Matrix (Fin n) (Fin n) ℂ) ∈ unitaryGroup (Fin n) ℂ := by
  rw [toMatrix_eq_givens g hr]
  exact givens_mem_unitaryGroup (by simp) hg

theorem toCMatrix_rotateRows (g : Rotation ℝ) {r : Nat} (hr : r + 1 < n)
    (a : DenseMatrix n n (Complex ℝ)) :
    (g.rotateRows r 0 a).toCMatrix = g.toMatrix r * a.toCMatrix := by
  rw [toMatrix_eq_givens g hr, ← mixRows_eq_mul]
  ext i k
  rw [DenseMatrix.toCMatrix_apply, rotateRows_apply _ _ _ _ i.isLt k.isLt,
    if_pos (Nat.zero_le _)]
  simp only [mixRows, of_apply, DenseMatrix.toCMatrix_apply, Fin.ext_iff]
  split_ifs <;> simp

theorem toCMatrix_rotateCols (g : Rotation ℝ) {r : Nat} (hr : r + 1 < n)
    (a : DenseMatrix n n (Complex ℝ)) :
    (g.rotateCols r n a).toCMatrix = a.toCMatrix * (g.toMatrix r)ᴴ := by
  rw [toMatrix_eq_givens g hr, ← mixCols_eq_mul]
  ext k j
  rw [DenseMatrix.toCMatrix_apply, rotateCols_apply _ _ _ _ k.isLt j.isLt, if_pos k.isLt]
  simp only [mixCols, of_apply, DenseMatrix.toCMatrix_apply, Fin.ext_iff]
  split_ifs <;> simp

end Rotation

/-! ## Changes of coordinates -/

namespace Similar

/-- `p'` is `p` in the coordinates that `u` leads to; the basis that is carried
along changes with the matrix. -/
structure IsTransformedBy (p : Similar n ℝ) (u : Matrix (Fin n) (Fin n) ℂ) (p' : Similar n ℝ) :
    Prop where
  matrix_eq : p'.matrix.toCMatrix = u * p.matrix.toCMatrix * uᴴ
  basis_eq : p'.basis.map DenseMatrix.toCMatrix = p.basis.map fun q => q.toCMatrix * uᴴ

theorem IsTransformedBy.trans {p p' p'' : Similar n ℝ} {u w : Matrix (Fin n) (Fin n) ℂ}
    (h : p.IsTransformedBy u p') (h' : p'.IsTransformedBy w p'') :
    p.IsTransformedBy (w * u) p'' where
  matrix_eq := by
    rw [h'.matrix_eq, h.matrix_eq, conjTranspose_mul]
    simp only [Matrix.mul_assoc]
  basis_eq := by
    have hcomp : p'.basis.map (fun q => q.toCMatrix * wᴴ)
        = (p'.basis.map DenseMatrix.toCMatrix).map (· * wᴴ) := by
      rw [Option.map_map]
      rfl
    rw [h'.basis_eq, hcomp, h.basis_eq, Option.map_map]
    simp only [Function.comp_def, conjTranspose_mul, Matrix.mul_assoc]

/-- The same operator in another orthonormal basis; the basis that is carried
along changes with it. -/
def IsSimilarTo (p p' : Similar n ℝ) : Prop :=
  ∃ u ∈ unitaryGroup (Fin n) ℂ, p'.matrix.toCMatrix = u * p.matrix.toCMatrix * uᴴ ∧
    p'.basis.map DenseMatrix.toCMatrix = p.basis.map fun q => q.toCMatrix * uᴴ

/-- A rotation of coordinates `r` and `r + 1` in whole rows and columns. -/
def fullRotate (p : Similar n R) (g : Rotation R) (r : Nat) : Similar n R where
  matrix := g.rotateCols r n (g.rotateRows r 0 p.matrix)
  basis := p.basis.map (g.rotateCols r n)

theorem isTransformedBy_fullRotate (p : Similar n ℝ) (g : Rotation ℝ) {r : Nat} (hr : r + 1 < n) :
    p.IsTransformedBy (g.toMatrix r) (p.fullRotate g r) where
  matrix_eq := by
    rw [fullRotate, Rotation.toCMatrix_rotateCols g hr, Rotation.toCMatrix_rotateRows g hr]
  basis_eq := by
    rw [fullRotate, Option.map_map]
    congr 1
    funext q
    exact Rotation.toCMatrix_rotateCols g hr q

/-! ## The bounds -/

/-- The subdiagonal entry below the last row before `high`, if there is one,
is zero. -/
def IsCutAt (p : Similar n ℝ) (high : Nat) : Prop :=
  ∀ k, k + 1 = high → k + 1 < n → p.matrix (k + 1) k = 0

theorem rotate_isCutAt {p : Similar n ℝ} {r high : Nat} (hcut : p.IsCutAt high) (hr : r + 2 ≤ high)
    (g : Rotation ℝ) : (p.rotate g r high).IsCutAt high := by
  intro k hk hkn
  rw [rotate_apply_of_untouched _ _ hkn (by omega) (by omega) (by omega)]
  exact hcut k hk hkn

theorem flatten_isCutAt {p : Similar n ℝ} {j high : Nat} (hcut : p.IsCutAt high) (hj : j + 2 < high)
    (g : Rotation ℝ) : (flatten g p j).IsCutAt high := by
  intro k hk hkn
  rw [flatten_apply _ _ hkn (by omega), if_neg (by omega), if_neg (by omega)]
  exact hcut k hk hkn

/-- Below a cut, and below a bulge, nothing is left for the columns to rotate. -/
theorem rotateRows_eq_zero_of_isCutAt {p : Similar n ℝ} (hp : p.matrix.IsHessenberg) {r high : Nat}
    (hr : r + 2 ≤ high) (hcut : p.IsCutAt high) (g : Rotation ℝ) {i : Nat}
    (hi : min high (r + 3) ≤ i) (hin : i < n) :
    g.rotateRows r r p.matrix i r = 0 ∧ g.rotateRows r r p.matrix i (r + 1) = 0 := by
  have untouched : ∀ k, k < n → g.rotateRows r r p.matrix i k = p.matrix i k := by
    intro k hk
    rw [Rotation.rotateRows_apply _ _ _ _ hin hk, if_neg (show i ≠ r by omega),
      if_neg (show i ≠ r + 1 by omega), ite_self]
  rw [untouched r (by omega), untouched (r + 1) (by omega)]
  refine ⟨hp i r hin (by omega), ?_⟩
  rcases Nat.lt_or_ge (r + 2) i with h | h
  · exact hp i (r + 1) hin h
  · obtain rfl : i = r + 1 + 1 := by omega
    exact hcut (r + 1) (by omega) hin

/-- A rotation is one of whole rows and columns as soon as its rows are. -/
theorem rotate_eq_fullRotate_of_rows {p p' : Similar n ℝ} {g : Rotation ℝ} {r high : Nat}
    (hp : p'.matrix.IsHessenberg) (hr : r + 2 ≤ high) (hcut : p'.IsCutAt high)
    (hbasis : p'.basis = p.basis)
    (hrows : g.rotateRows r r p'.matrix = g.rotateRows r 0 p.matrix) :
    p'.rotate g r high = p.fullRotate g r := by
  have hcols : g.rotateCols r (min high (r + 3)) (g.rotateRows r r p'.matrix)
      = g.rotateCols r n (g.rotateRows r r p'.matrix) :=
    g.rotateCols_eq_of_zeros fun i hi hin => rotateRows_eq_zero_of_isCutAt hp hr hcut g hi hin
  rw [rotate, fullRotate, hcols, hrows, hbasis]

/-- The first rotation of a sweep. Left of the block there is nothing in its
first two rows. -/
theorem rotate_eq_fullRotate {p : Similar n ℝ} {low high : Nat} (hp : p.matrix.IsHessenberg)
    (hblock : low + 2 ≤ high) (hhigh : high ≤ n) (htop : p.IsCutAt low) (hcut : p.IsCutAt high)
    (g : Rotation ℝ) : p.rotate g low high = p.fullRotate g low := by
  refine rotate_eq_fullRotate_of_rows hp hblock hcut rfl (g.rotateRows_eq_of_zeros fun k hk => ?_)
  refine ⟨?_, hp (low + 1) k (by omega) (by omega)⟩
  rcases Nat.lt_or_ge (k + 1) low with h | h
  · exact hp low k (by omega) h
  · obtain rfl : low = k + 1 := by omega
    exact htop k rfl (by omega)

/-- The rotation that takes the bulge out of column `j`. -/
def bulgeRotation (p : Similar n R) (j : Nat) : Rotation R :=
  .ofPair (p.matrix (j + 1) j) (p.matrix (j + 2) j)

/-- The entries that `chase` writes are those that the rotation makes. -/
theorem rotateRows_flatten {p : Similar n ℝ} {high j : Nat} (hp : p.matrix.HasBulge high j)
    (hj : j + 2 < high) (hhigh : high ≤ n) :
    (p.bulgeRotation j).rotateRows (j + 1) (j + 1) (flatten (p.bulgeRotation j) p j).matrix
      = (p.bulgeRotation j).rotateRows (j + 1) 0 p.matrix := by
  set g := p.bulgeRotation j
  obtain ⟨-, hlength, hzero⟩ := Rotation.ofPair_spec (p.matrix (j + 1) j) (p.matrix (j + 2) j)
  have hleft : g.rotateRows (j + 1) j p.matrix = g.rotateRows (j + 1) 0 p.matrix :=
    g.rotateRows_eq_of_zeros fun k hk => ⟨hp (j + 1) k (by omega) (by omega) (by omega),
      hp (j + 2) k (by omega) (by omega) (by omega)⟩
  rw [← hleft]
  refine DenseMatrix.ext_of_get fun i k hi hk => ?_
  rw [Rotation.rotateRows_apply _ _ _ _ hi hk, Rotation.rotateRows_apply _ _ _ _ hi hk,
    flatten_apply g p (show j + 1 < n by omega) hk,
    flatten_apply g p (show j + 1 + 1 < n by omega) hk, flatten_apply g p hi hk]
  by_cases hkj : k = j
  · -- the column of the bulge, which `chase` writes and does not rotate
    subst hkj
    rw [if_neg (by omega), if_pos (Nat.le_refl k)]
    by_cases hx : i = k + 1
    · rw [if_neg (by omega), if_pos ⟨hx, rfl⟩, if_pos hx]
      exact Complex.toC_injective hlength.symm
    · by_cases hy : i = k + 2
      · rw [if_pos ⟨hy, rfl⟩, if_neg hx, if_pos hy]
        exact Complex.toC_injective hzero.symm
      · rw [if_neg (by omega), if_neg (by omega), if_neg hx, if_neg hy]
  · have hcolumns : j + 1 ≤ k ↔ j ≤ k := by omega
    simp only [hkj, and_false, if_false, hcolumns]

/-- The other rotations of a sweep. -/
theorem chase_eq_fullRotate {p : Similar n ℝ} {high j : Nat} (hp : p.matrix.HasBulge high j)
    (hj : j + 2 < high) (hhigh : high ≤ n) (hcut : p.IsCutAt high) :
    p.chase high j = p.fullRotate (p.bulgeRotation j) (j + 1) :=
  rotate_eq_fullRotate_of_rows (flatten_isHessenberg hp _) (by omega) (flatten_isCutAt hcut hj _)
    rfl (rotateRows_flatten hp hj hhigh)

/-! ## The sweep -/

/-- The rotation that brings the shift into the block that starts at `low`. -/
def shiftRotation (p : Similar n R) (low : Nat) (shift : Complex R) : Rotation R :=
  .ofPair (p.matrix low low - shift) (p.matrix (low + 1) low)

/-- A sweep as far as column `j`, where it has made a bulge. -/
def sweepUntil (p : Similar n R) (low high : Nat) (shift : Complex R) (j : Nat) : Similar n R :=
  (List.range' low (j - low)).foldl (chase high) (p.rotate (p.shiftRotation low shift) low high)

/-- The rotation of coordinates `r` and `r + 1` that a sweep makes: the first
one brings in the shift, and each later one takes out the bulge that it finds. -/
def sweepRotation (p : Similar n R) (low high : Nat) (shift : Complex R) (r : Nat) : Rotation R :=
  if r ≤ low then p.shiftRotation low shift
  else (p.sweepUntil low high shift (r - 1)).bulgeRotation (r - 1)

/-- The product of the rotations that a sweep makes of coordinates before
`last`. The later ones stand on the left. -/
noncomputable def sweepFactor (p : Similar n ℝ) (low high : Nat) (shift : Complex ℝ) (last : Nat) :
    Matrix (Fin n) (Fin n) ℂ :=
  ((List.range' low (last - low)).reverse.map fun r =>
    (p.sweepRotation low high shift r).toMatrix r).prod

theorem sweep_eq_sweepUntil (p : Similar n R) (low high : Nat) (shift : Complex R) :
    p.sweep low high shift = p.sweepUntil low high shift (high - 2) := rfl

section Steps

variable (p : Similar n ℝ) {low high j : Nat} (shift : Complex ℝ)

theorem sweepUntil_low : p.sweepUntil low high shift low
    = p.rotate (p.shiftRotation low shift) low high := by
  rw [sweepUntil, Nat.sub_self]
  rfl

theorem sweepUntil_succ (h : low ≤ j) : p.sweepUntil low high shift (j + 1)
    = (p.sweepUntil low high shift j).chase high j := by
  rw [sweepUntil, range'_succ_of_le h, List.foldl_append]
  rfl

theorem sweepRotation_low : p.sweepRotation low high shift low = p.shiftRotation low shift :=
  if_pos (Nat.le_refl low)

theorem sweepRotation_succ (h : low ≤ j) : p.sweepRotation low high shift (j + 1)
    = (p.sweepUntil low high shift j).bulgeRotation j :=
  if_neg (by omega)

theorem sweepFactor_low : p.sweepFactor low high shift low = 1 := by
  rw [sweepFactor, Nat.sub_self]
  rfl

theorem sweepFactor_succ (h : low ≤ j) : p.sweepFactor low high shift (j + 1)
    = (p.sweepRotation low high shift j).toMatrix j * p.sweepFactor low high shift j := by
  rw [sweepFactor, range'_succ_of_le h, List.reverse_append, List.reverse_singleton,
    List.singleton_append, List.map_cons, List.prod_cons]
  rfl

/-- What all rotations are in, and products stay in, their product is in. -/
theorem sweepFactor_mem {last : Nat} {s : Submonoid (Matrix (Fin n) (Fin n) ℂ)}
    (h : ∀ r, low ≤ r → r < last → (p.sweepRotation low high shift r).toMatrix r ∈ s) :
    p.sweepFactor low high shift last ∈ s := by
  refine s.list_prod_mem fun u hu => ?_
  obtain ⟨r, hr, rfl⟩ := List.mem_map.1 hu
  obtain ⟨hlow, hlast⟩ := List.mem_range'_1.1 (List.mem_reverse.1 hr)
  exact h r hlow (by omega)

theorem toMatrix_sweepRotation_mem_unitaryGroup {r : Nat} (hr : r + 1 < n) :
    (p.sweepRotation low high shift r).toMatrix r ∈ unitaryGroup (Fin n) ℂ := by
  refine Rotation.toMatrix_mem_unitaryGroup hr ?_
  rw [sweepRotation]
  split_ifs
  · exact (Rotation.ofPair_spec _ _).1
  · exact (Rotation.ofPair_spec _ _).1

end Steps

/-- What a sweep has come to in column `j`: there is a bulge, the block is still
cut off below, and the matrix has been multiplied by the rotations so far. -/
theorem sweepUntil_spec {p : Similar n ℝ} {low high j : Nat} (hp : p.matrix.IsHessenberg)
    (hlow : low ≤ j) (hj : j + 2 ≤ high) (hhigh : high ≤ n) (htop : p.IsCutAt low)
    (hcut : p.IsCutAt high) (shift : Complex ℝ) :
    let t := p.sweepUntil low high shift j
    t.matrix.HasBulge high j ∧ t.IsCutAt high ∧
      p.IsTransformedBy (p.sweepFactor low high shift (j + 1)) t := by
  induction j, hlow using Nat.le_induction with
  | base =>
      rw [sweepUntil_low, sweepFactor_succ p shift (Nat.le_refl low), sweepFactor_low,
        Matrix.mul_one, sweepRotation_low]
      refine ⟨rotate_hasBulge hp _ _ _, rotate_isCutAt hcut hj _, ?_⟩
      rw [rotate_eq_fullRotate hp hj hhigh htop hcut]
      exact isTransformedBy_fullRotate p _ (by omega)
  | succ j hlow ih =>
      obtain ⟨hbulge, hcut', hform⟩ := ih (by omega)
      rw [sweepUntil_succ p shift hlow, sweepFactor_succ p shift (Nat.le_succ_of_le hlow),
        sweepRotation_succ p shift hlow]
      refine ⟨chase_hasBulge hbulge,
        rotate_isCutAt (flatten_isCutAt hcut' (by omega) _) (by omega) _, hform.trans ?_⟩
      rw [chase_eq_fullRotate hbulge (by omega) hhigh hcut']
      exact isTransformedBy_fullRotate _ _ (by omega)

/-- A sweep multiplies the matrix by its rotations. -/
theorem sweep_isTransformedBy {p : Similar n ℝ} {low high : Nat} (hp : p.matrix.IsHessenberg)
    (hblock : low + 2 ≤ high) (hhigh : high ≤ n) (htop : p.IsCutAt low) (hcut : p.IsCutAt high)
    (shift : Complex ℝ) :
    p.IsTransformedBy (p.sweepFactor low high shift (high - 1)) (p.sweep low high shift) := by
  have hlast : high - 2 + 1 = high - 1 := by omega
  rw [← hlast, sweep_eq_sweepUntil]
  exact (sweepUntil_spec hp (by omega) (by omega) hhigh htop hcut shift).2.2

/-- A sweep is a similarity, whatever its shift. -/
theorem sweep_isSimilarTo {p : Similar n ℝ} {low high : Nat} (hp : p.matrix.IsHessenberg)
    (hblock : low + 2 ≤ high) (hhigh : high ≤ n) (htop : p.IsCutAt low) (hcut : p.IsCutAt high)
    (shift : Complex ℝ) : p.IsSimilarTo (p.sweep low high shift) := by
  obtain ⟨hmatrix, hbasis⟩ := sweep_isTransformedBy hp hblock hhigh htop hcut shift
  refine ⟨_, p.sweepFactor_mem shift fun r _ hr => ?_, hmatrix, hbasis⟩
  exact p.toMatrix_sweepRotation_mem_unitaryGroup shift (by omega)

end Similar

end DenseNumeric
