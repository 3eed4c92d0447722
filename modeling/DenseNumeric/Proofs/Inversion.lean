import DenseNumeric.Proofs.Exact
import DenseNumeric.Proofs.ZeroPattern
import DenseNumeric.LinearAlgebra.Elimination

/-!
# Inversion over a field

Elimination multiplies the matrix and the identity beside it by the same
invertible matrices. What then stands in the right half is their product `m`,
and in the left half `m` times the matrix that is inverted; so nothing needs to
be known of `m` but what the right half shows (`IsEliminated`).

A column without a pivot is a combination of the unit columns before it. As
`m` is invertible, the columns of the matrix depend on each other in the same
way: the column at which the run ends is the first that depends on those
before it, however the pivots are chosen.
-/

namespace DenseNumeric

open Matrix

/-! ## Exact entries -/

/-- Entries from a field, compared exactly. Their size is a real number that
is positive except at zero. -/
class ExactEntry (E : Type) extends Field E, Entry E ℝ where
  beq_iff : ∀ x y : E, (x == y) = true ↔ x = y
  size_nonneg : ∀ x : E, 0 ≤ Entry.size x
  size_eq_zero : ∀ x : E, Entry.size x = 0 ↔ x = 0

/-- The entries of real matrices, read exactly. -/
@[reducible] noncomputable def ExactEntry.real : ExactEntry ℝ where
  toField := inferInstance
  toBEq := inferInstance
  size := Arith.abs
  beq_iff _ _ := beq_iff_eq
  size_nonneg := abs_nonneg
  size_eq_zero _ := abs_eq_zero

theorem ExactEntry.toEntry_real : ExactEntry.real.toEntry = (inferInstance : Entry ℝ ℝ) := rfl

namespace Complex

/-- A pair of reals is a complex number. -/
def equivC : Complex ℝ ≃ ℂ where
  toFun := toC
  invFun z := ⟨z.re, z.im⟩
  left_inv _ := rfl
  right_inv _ := rfl

/-- The operations on pairs are those of the complex field. -/
@[reducible] noncomputable def field : Field (Complex ℝ) :=
  { equivC.commRing with
    inv := fun z => equivC.symm z.toC⁻¹
    div := fun z w => z / w
    div_eq_mul_inv := fun z w =>
      toC_injective ((toC_div z w).trans (div_eq_mul_inv z.toC w.toC))
    exists_pair_ne := ⟨0, 1, fun h => zero_ne_one (congrArg toC h)⟩
    mul_inv_cancel := fun z hz => toC_injective (mul_inv_cancel₀ fun h => hz (toC_eq_zero.1 h))
    inv_zero := toC_injective inv_zero
    nnqsmul := _
    nnqsmul_def := fun _ _ => rfl
    qsmul := _
    qsmul_def := fun _ _ => rfl }

theorem beq_iff {z w : Complex ℝ} : (z == w) = true ↔ z = w := by
  rw [Complex.ext_iff, ← beq_iff_eq (a := z.re), ← beq_iff_eq (a := z.im), ← Bool.and_eq_true]
  rfl

end Complex

/-- The entries of complex matrices, read exactly. -/
@[reducible] noncomputable def ExactEntry.complex : ExactEntry (Complex ℝ) where
  toField := Complex.field
  toBEq := inferInstance
  size := Complex.magnitude
  beq_iff _ _ := Complex.beq_iff
  size_nonneg z := z.magnitude_eq_norm ▸ norm_nonneg _
  size_eq_zero z := by
    rw [z.magnitude_eq_norm, norm_eq_zero]
    exact Complex.toC_eq_zero

theorem ExactEntry.toEntry_complex :
    ExactEntry.complex.toEntry = (inferInstance : Entry (Complex ℝ) ℝ) := rfl

variable {E : Type} [ExactEntry E] {m n : Nat}

theorem size_nonneg (x : E) : (0 : ℝ) ≤ Entry.size x := ExactEntry.size_nonneg x

theorem size_eq_zero {x : E} : (Entry.size x : ℝ) = 0 ↔ x = 0 := ExactEntry.size_eq_zero x

theorem beq_zero_iff (x : E) : (x == 0) = true ↔ x = 0 := ExactEntry.beq_iff x 0

/-! ## Pivots -/

namespace DenseMatrix

/-- What the search for the largest entry carries: the best row so far and
its size, or the first row and zero if all were zero. -/
structure IsBest (a : DenseMatrix m n E) (c : Nat) (seen : Nat → Prop) (best : Nat × ℝ) : Prop where
  found : best.2 = 0 ∨ seen best.1 ∧ best.2 = Entry.size (a best.1 c)
  largest : ∀ r, seen r → Entry.size (a r c) ≤ best.2

theorem foldl_isBest (a : DenseMatrix m n E) (c count : Nat) :
    IsBest a c (fun r => c ≤ r ∧ r < c + count) ((List.range' c count).foldl
      (fun best r => if best.2 < Entry.size (a r c) then (r, Entry.size (a r c)) else best)
      (c, (0 : ℝ))) := by
  refine foldl_ascending (P := fun j best => IsBest a c (fun r => c ≤ r ∧ r < j) best)
    ⟨.inl rfl, fun r hr => by omega⟩ ?_
  intro j best hj hj' h
  split_ifs with hlt
  · refine ⟨.inr ⟨⟨hj, Nat.lt_succ_self j⟩, rfl⟩, fun r hr => ?_⟩
    rcases Nat.lt_or_ge r j with hrj | hrj
    · exact (h.largest r ⟨hr.1, hrj⟩).trans hlt.le
    · obtain rfl : r = j := by omega
      exact le_rfl
  · refine ⟨?_, fun r hr => ?_⟩
    · rcases h.found with h0 | ⟨hseen, hsize⟩
      · exact .inl h0
      · exact .inr ⟨⟨hseen.1, hseen.2.trans (Nat.lt_succ_self j)⟩, hsize⟩
    · rcases Nat.lt_or_ge r j with hrj | hrj
      · exact h.largest r ⟨hr.1, hrj⟩
      · obtain rfl : r = j := by omega
        exact not_lt.1 hlt

theorem pivotRow?_eq_some {a : DenseMatrix m n E} {pivoting : Pivoting} {c r : Nat}
    (h : a.pivotRow? pivoting c = some r) : c ≤ r ∧ r < m ∧ a r c ≠ 0 := by
  cases pivoting with
  | firstNonzero =>
      have hmem := List.mem_range'_1.1 (List.mem_of_find?_eq_some h)
      have hne := List.find?_some h
      rw [Bool.not_eq_true', ← Bool.not_eq_true, beq_zero_iff] at hne
      exact ⟨hmem.1, by omega, hne⟩
  | largest =>
      have hbest := foldl_isBest a c (m - c)
      simp only [pivotRow?] at h
      split at h
      · rename_i hpos
        obtain rfl := Option.some.inj h
        obtain ⟨hseen, hsize⟩ := hbest.found.resolve_left hpos.ne'
        refine ⟨hseen.1, by omega, fun h0 => ?_⟩
        rw [hsize, h0, size_eq_zero.2 rfl] at hpos
        exact lt_irrefl 0 hpos
      · cases h

theorem pivotRow?_eq_none {a : DenseMatrix m n E} {pivoting : Pivoting} {c : Nat}
    (h : a.pivotRow? pivoting c = none) {r : Nat} (hcr : c ≤ r) (hr : r < m) : a r c = 0 := by
  cases pivoting with
  | firstNonzero =>
      have := List.find?_eq_none.1 h r (List.mem_range'_1.2 (by omega))
      rwa [Bool.not_eq_true', Bool.not_eq_false, beq_zero_iff] at this
  | largest =>
      have hbest := foldl_isBest a c (m - c)
      simp only [pivotRow?] at h
      split at h
      · cases h
      · rename_i hpos
        have hle := (hbest.largest r ⟨hcr, by omega⟩).trans (not_lt.1 hpos)
        exact size_eq_zero.1 (le_antisymm hle (size_nonneg _))

/-! ## Row operations -/

/-- Part of the columns of a working matrix, those in given places. -/
def columns (a : DenseMatrix m n E) (place : Fin m → Nat) : Matrix (Fin m) (Fin m) E :=
  of fun i j => a i (place j)

variable {place : Fin m → Nat}

theorem columns_swapRows (a : DenseMatrix m n E) (hplace : ∀ j, place j < n) (r s : Fin m) :
    (a.swapRows r s).columns place = swap E r s * a.columns place := by
  ext i j
  rw [columns, of_apply, swapRows, apply_of_lt _ i.isLt (hplace j)]
  by_cases hir : i = r
  · rw [hir, if_pos rfl, swap_mul_apply_left]
    rfl
  · by_cases his : i = s
    · rw [his, if_neg (fun h => hir (his.trans (Fin.ext h))), if_pos rfl, swap_mul_apply_right]
      rfl
    · rw [if_neg (fun h => hir (Fin.ext h)), if_neg (fun h => his (Fin.ext h)),
        swap_mul_of_ne hir his]
      rfl

theorem clearColumn_apply (a : DenseMatrix m n E) (i : Nat) {r j : Nat} (hr : r < m) (hj : j < n) :
    a.clearColumn i r j = if r = i then a i j / a i i else a r j - a r i * (a i j / a i i) := by
  rw [clearColumn, apply_of_lt _ hr hj, getD_ofFn _ _ hj]
  split_ifs with hri hzero
  · rfl
  · rw [(beq_zero_iff _).1 hzero, zero_mul, sub_zero]
  · rfl

/-- The matrix that clears column `i`, whose entries are `u`. -/
def clearing (u : Fin m → E) (i : Fin m) : Matrix (Fin m) (Fin m) E :=
  1 - vecMulVec (fun r => if r = i then 1 - 1 / u i else u r / u i) (Pi.single i 1)

theorem isUnit_clearing {u : Fin m → E} {i : Fin m} (h : u i ≠ 0) : IsUnit (clearing u i) := by
  rw [isUnit_iff_isUnit_det, clearing, vecMulVec_eq Unit, det_one_sub_mul_comm, det_unique]
  simp [h]

theorem columns_clearColumn (a : DenseMatrix m n E) (hplace : ∀ j, place j < n) (i : Fin m) :
    (a.clearColumn i).columns place = clearing (fun r => a r i) i * a.columns place := by
  ext r j
  rw [columns, of_apply, clearColumn_apply a i r.isLt (hplace j), clearing, Matrix.sub_mul,
    Matrix.one_mul, Matrix.sub_apply, vecMulVec_mul, vecMulVec_apply, single_one_vecMul]
  show _ = a r (place j) - _ * a i (place j)
  by_cases hri : r = i
  · subst hri
    rw [if_pos rfl, if_pos rfl]
    ring
  · rw [if_neg (fun h => hri (Fin.ext h)), if_neg hri]
    ring

end DenseMatrix

/-! ## Dependent columns -/

section DependentColumns

variable {F : Type} [Field F]

/-- The columns that are combinations of those before them. -/
def dependentColumns (a : Matrix (Fin n) (Fin n) F) : Set Nat :=
  {c | ∃ h : c < n, a.col ⟨c, h⟩ ∈ Submodule.span F (a.col '' {j | (j : Nat) < c})}

theorem dependentColumns_subset_mul (m a : Matrix (Fin n) (Fin n) F) :
    dependentColumns a ⊆ dependentColumns (m * a) := by
  rintro c ⟨hc, h⟩
  have hcols : (m * a).col = m.mulVecLin ∘ a.col := rfl
  refine ⟨hc, ?_⟩
  rw [hcols, Set.image_comp, ← Submodule.map_span]
  exact Submodule.mem_map_of_mem h

/-- Columns depend on each other in the same way after an invertible step. -/
theorem dependentColumns_mul {m : Matrix (Fin n) (Fin n) F} (hm : IsUnit m)
    (a : Matrix (Fin n) (Fin n) F) : dependentColumns (m * a) = dependentColumns a := by
  obtain ⟨u, rfl⟩ := hm
  refine Set.Subset.antisymm ?_ (dependentColumns_subset_mul _ a)
  have := dependentColumns_subset_mul (↑u⁻¹ : Matrix (Fin n) (Fin n) F)
    ((u : Matrix (Fin n) (Fin n) F) * a)
  rwa [← Matrix.mul_assoc, Units.inv_mul, Matrix.one_mul] at this

theorem not_isUnit_of_mem_dependentColumns {a : Matrix (Fin n) (Fin n) F} {c : Nat}
    (h : c ∈ dependentColumns a) : ¬IsUnit a := by
  obtain ⟨hc, hspan⟩ := h
  intro ha
  refine (linearIndependent_cols_iff_isUnit.2 ha).notMem_span_image ?_ hspan
  exact lt_irrefl c

/-- After unit columns, a column with nothing on or below the diagonal is the
first dependent one. -/
theorem isLeast_dependentColumns {a : Matrix (Fin n) (Fin n) F} {i : Nat} (hi : i < n)
    (hunit : ∀ r j : Fin n, (j : Nat) < i → a r j = if r = j then 1 else 0)
    (hzero : ∀ r : Fin n, i ≤ r → a r ⟨i, hi⟩ = 0) : IsLeast (dependentColumns a) i := by
  constructor
  · have hcol : a.col ⟨i, hi⟩
        = ∑ j ∈ Finset.univ.filter fun j : Fin n => (j : Nat) < i, a j ⟨i, hi⟩ • a.col j := by
      ext r
      rw [Finset.sum_apply, col_apply]
      rcases Nat.lt_or_ge r i with hr | hr
      · rw [Finset.sum_eq_single r]
        · rw [Pi.smul_apply, col_apply, hunit r r hr, if_pos rfl, smul_eq_mul, mul_one]
        · intro j hj hjr
          rw [Pi.smul_apply, col_apply, hunit r j (Finset.mem_filter.1 hj).2, if_neg hjr.symm,
            smul_zero]
        · exact fun h => absurd (Finset.mem_filter.2 ⟨Finset.mem_univ r, hr⟩) h
      · rw [hzero r hr, Finset.sum_eq_zero]
        intro j hj
        have hj' := (Finset.mem_filter.1 hj).2
        rw [Pi.smul_apply, col_apply, hunit r j hj', if_neg (by rintro rfl; omega), smul_zero]
    refine ⟨hi, ?_⟩
    rw [hcol]
    refine Submodule.sum_mem _ fun j hj => Submodule.smul_mem _ _ (Submodule.subset_span ?_)
    exact ⟨j, (Finset.mem_filter.1 hj).2, rfl⟩
  · rintro c ⟨hc, hspan⟩
    by_contra hci
    have hker : Submodule.span F (a.col '' {j | (j : Nat) < c})
        ≤ LinearMap.ker (LinearMap.proj (⟨c, hc⟩ : Fin n) : (Fin n → F) →ₗ[F] F) := by
      refine Submodule.span_le.2 ?_
      rintro _ ⟨j, hj, rfl⟩
      have hj' : (j : Nat) < c := hj
      show a ⟨c, hc⟩ j = 0
      rw [hunit _ j (by omega), if_neg (by rintro rfl; exact lt_irrefl c hj')]
    have hone : a.col ⟨c, hc⟩ ⟨c, hc⟩ = 0 := hker hspan
    rw [col_apply, hunit _ _ (show c < i by omega), if_pos rfl] at hone
    exact one_ne_zero hone

end DependentColumns

/-! ## The run -/

namespace DenseMatrix

/-- The first `i` columns are done: they are unit columns, and the left half is
the matrix times what stands in the right half, which is invertible. -/
structure IsEliminated (a : Matrix (Fin n) (Fin n) E) (i : Nat) (b : DenseMatrix n (2 * n) E) :
    Prop where
  isUnit : IsUnit (b.columns fun j => n + j)
  left_eq : b.columns (fun j => j) = b.columns (fun j => n + j) * a
  unit_columns : ∀ r j : Fin n, (j : Nat) < i → b r j = if r = j then 1 else 0

theorem besideIdentity_isEliminated (a : DenseMatrix n n E) :
    IsEliminated a.toMatrix 0 a.besideIdentity := by
  have hleft : a.besideIdentity.columns (fun j => j) = a.toMatrix := by
    ext r j
    rw [columns, of_apply, besideIdentity, apply_of_lt _ r.isLt (by omega), if_pos j.isLt]
    rfl
  have hright : a.besideIdentity.columns (fun j => n + j) = 1 := by
    ext r j
    rw [columns, of_apply, besideIdentity, apply_of_lt _ r.isLt (by omega), if_neg (by omega),
      one_apply]
    by_cases hrj : r = j
    · rw [if_pos (by rw [hrj]), if_pos hrj]
    · rw [if_neg (fun h => hrj (Fin.ext (by omega))), if_neg hrj]
  constructor
  · rw [hright]
    exact isUnit_one
  · rw [hleft, hright, Matrix.one_mul]
  · intro r j hj
    omega

namespace IsEliminated

variable {a : Matrix (Fin n) (Fin n) E} {b : DenseMatrix n (2 * n) E} {i : Nat}

theorem eq_zero (h : IsEliminated a i b) {r : Nat} (hi : i ≤ r) (hr : r < n) {j : Fin n}
    (hj : (j : Nat) < i) : b r j = 0 := by
  rw [h.unit_columns ⟨r, hr⟩ j hj, if_neg]
  rintro rfl
  exact absurd hi (not_le.2 hj)

theorem isLeast (h : IsEliminated a i b) (hi : i < n) (hzero : ∀ r, i ≤ r → r < n → b r i = 0) :
    IsLeast (dependentColumns a) i := by
  rw [← dependentColumns_mul h.isUnit a, ← h.left_eq]
  exact isLeast_dependentColumns hi h.unit_columns fun r hr => hzero r hr r.isLt

theorem swapRows (h : IsEliminated a i b) {r : Nat} (hi : i ≤ r) (hr : r < n) :
    IsEliminated a i (b.swapRows i r) := by
  have hswap : ∀ place : Fin n → Nat, (∀ j, place j < 2 * n) → (b.swapRows i r).columns place
      = swap E ⟨i, by omega⟩ ⟨r, hr⟩ * b.columns place := fun place hplace =>
    b.columns_swapRows hplace ⟨i, by omega⟩ ⟨r, hr⟩
  have hunit : IsUnit (swap E (⟨i, by omega⟩ : Fin n) ⟨r, hr⟩) :=
    ⟨⟨_, _, swap_mul_self _ _, swap_mul_self _ _⟩, rfl⟩
  constructor
  · rw [hswap _ fun j => by omega]
    exact hunit.mul h.isUnit
  · rw [hswap _ fun j => by omega, hswap _ fun j => by omega, h.left_eq, Matrix.mul_assoc]
  · intro k j hj
    rw [DenseMatrix.swapRows, apply_of_lt _ k.isLt (by omega)]
    rcases Nat.lt_or_ge k i with hk | hk
    · rw [if_neg hk.ne, if_neg (by omega)]
      exact h.unit_columns k j hj
    · have hkj : k ≠ j := by
        rintro rfl
        omega
      rw [if_neg hkj]
      split_ifs
      · exact h.eq_zero hi hr hj
      · exact h.eq_zero le_rfl (by omega) hj
      · exact h.eq_zero hk k.isLt hj

theorem clearColumn (h : IsEliminated a i b) (hi : i < n) (hpivot : b i i ≠ 0) :
    IsEliminated a (i + 1) (b.clearColumn i) := by
  have hclear : ∀ place : Fin n → Nat, (∀ j, place j < 2 * n) → (b.clearColumn i).columns place
      = clearing (fun r => b r i) ⟨i, hi⟩ * b.columns place := fun place hplace =>
    b.columns_clearColumn hplace ⟨i, hi⟩
  have hunit : IsUnit (clearing (fun r : Fin n => b r i) ⟨i, hi⟩) := isUnit_clearing hpivot
  constructor
  · rw [hclear _ fun j => by omega]
    exact hunit.mul h.isUnit
  · rw [hclear _ fun j => by omega, hclear _ fun j => by omega, h.left_eq, Matrix.mul_assoc]
  · intro r j hj
    rw [clearColumn_apply b i r.isLt (by omega)]
    rcases Nat.lt_succ_iff_lt_or_eq.1 hj with hj | hj
    · -- the pivot row has a zero in a column that is done
      have hrow := h.eq_zero le_rfl hi hj
      rw [hrow, zero_div, mul_zero, sub_zero]
      by_cases hri : (r : Nat) = i
      · rw [if_pos hri, if_neg (by rintro rfl; omega)]
      · rw [if_neg hri]
        exact h.unit_columns r j hj
    · rw [hj, div_self hpivot, mul_one, sub_self]
      by_cases hri : (r : Nat) = i
      · rw [if_pos hri, if_pos (Fin.ext (hri.trans hj.symm))]
      · rw [if_neg hri, if_neg (by rintro rfl; exact hri hj)]

end IsEliminated

/-- All columns are done, or the run ends at the first dependent one. -/
theorem clearColumns_spec {a : Matrix (Fin n) (Fin n) E} (pivoting : Pivoting) (scale tiny : ℝ)
    {count i : Nat} (hi : i + count = n) {b : DenseMatrix n (2 * n) E} (h : IsEliminated a i b) :
    (∃ b', (clearColumns pivoting scale tiny (List.range' i count) b).value = .ok b' ∧
        IsEliminated a n b') ∨
      ∃ c, (clearColumns pivoting scale tiny (List.range' i count) b).value
          = .error (.singularMatrix c) ∧ IsLeast (dependentColumns a) c := by
  induction count generalizing i b with
  | zero =>
      obtain rfl : i = n := hi
      exact .inl ⟨b, rfl, h⟩
  | succ count ih =>
      rw [List.range'_succ, clearColumns]
      cases hp : b.pivotRow? pivoting i with
      | none =>
          -- no pivot: the rest of column `i` is zero, the columns before it are unit columns
          refine .inr ⟨i, rfl, h.isLeast (by omega) fun r hr hrn => ?_⟩
          exact pivotRow?_eq_none hp hr hrn
      | some r =>
          obtain ⟨hir, hr, hne⟩ := pivotRow?_eq_some hp
          refine ih (by omega) ((h.swapRows hir hr).clearColumn (by omega) ?_)
          rw [DenseMatrix.swapRows, apply_of_lt _ (by omega) (by omega), if_pos rfl]
          exact hne

theorem toMatrix_rightHalf (b : DenseMatrix n (2 * n) E) :
    b.rightHalf.toMatrix = b.columns fun j => n + j := by
  rw [rightHalf, toMatrix_ofFn]
  rfl

/-- What inversion returns: an inverse, or the first dependent column. -/
theorem inverse_cases (a : DenseMatrix n n E) (pivoting : Pivoting) :
    (∃ b, (a.inverse pivoting).value = .ok b ∧ a.toMatrix * b.toMatrix = 1 ∧
        b.toMatrix * a.toMatrix = 1) ∨
      ∃ c, (a.inverse pivoting).value = .error (.singularMatrix c) ∧
        IsLeast (dependentColumns a.toMatrix) c := by
  have hvalue : (a.inverse pivoting).value = (clearColumns pivoting
      (Arith.largestOver a.entries Entry.size)
      (Arith.epsilon * Arith.largestOver a.entries Entry.size * (n : ℝ)) (List.range n)
      a.besideIdentity).value.map rightHalf := rfl
  rw [hvalue, List.range_eq_range']
  rcases clearColumns_spec pivoting (Arith.largestOver a.entries Entry.size)
      (Arith.epsilon * Arith.largestOver a.entries Entry.size * (n : ℝ)) (Nat.zero_add n)
      (besideIdentity_isEliminated a) with ⟨b, hb, h⟩ | ⟨c, hc, hleast⟩
  · have hone : b.columns (fun j => j) = 1 := by
      ext r j
      rw [one_apply]
      exact h.unit_columns r j j.isLt
    have hinv : b.rightHalf.toMatrix * a.toMatrix = 1 := by
      rw [toMatrix_rightHalf, ← h.left_eq, hone]
    refine .inl ⟨b.rightHalf, ?_, mul_eq_one_comm.1 hinv, hinv⟩
    rw [hb]
    rfl
  · refine .inr ⟨c, ?_, hleast⟩
    rw [hc]
    rfl

theorem inverse_of_isUnit {a : DenseMatrix n n E} (h : IsUnit a.toMatrix) (pivoting : Pivoting) :
    ∃ b, (a.inverse pivoting).value = .ok b ∧ a.toMatrix * b.toMatrix = 1 ∧
      b.toMatrix * a.toMatrix = 1 := by
  rcases a.inverse_cases pivoting with hok | ⟨c, -, hleast⟩
  · exact hok
  · exact absurd h (not_isUnit_of_mem_dependentColumns hleast.1)

theorem inverse_of_not_isUnit {a : DenseMatrix n n E} (h : ¬IsUnit a.toMatrix)
    (pivoting : Pivoting) : ∃ c, (a.inverse pivoting).value = .error (.singularMatrix c) ∧
      IsLeast (dependentColumns a.toMatrix) c := by
  rcases a.inverse_cases pivoting with ⟨b, -, hab, hba⟩ | herror
  · exact absurd ⟨⟨_, _, hab, hba⟩, rfl⟩ h
  · exact herror

theorem inverse_value_eq (a : DenseMatrix n n E) (pivoting other : Pivoting) :
    (a.inverse other).value = (a.inverse pivoting).value := by
  by_cases h : IsUnit a.toMatrix
  · obtain ⟨b, hb, -, hba⟩ := inverse_of_isUnit h pivoting
    obtain ⟨b', hb', hab', -⟩ := inverse_of_isUnit h other
    rw [hb, hb', toMatrix_injective (left_inv_eq_right_inv hba hab')]
  · obtain ⟨c, hc, hleast⟩ := inverse_of_not_isUnit h pivoting
    obtain ⟨c', hc', hleast'⟩ := inverse_of_not_isUnit h other
    rw [hc, hc', hleast.unique hleast']

/-- Inversion succeeds for the invertible matrices, with the inverse, and names
the first column that depends on those before it for all others. The choice of
pivots is of no consequence. -/
theorem inverse_spec (a : DenseMatrix n n E) (pivoting : Pivoting) :
    ((∃ b, (a.inverse pivoting).value = .ok b) ↔ IsUnit a.toMatrix) ∧
      (∀ b, (a.inverse pivoting).value = .ok b →
        a.toMatrix * b.toMatrix = 1 ∧ b.toMatrix * a.toMatrix = 1) ∧
      (¬IsUnit a.toMatrix → ∃ c, (a.inverse pivoting).value = .error (.singularMatrix c) ∧
        IsLeast {c | ∃ h : c < n, a.toMatrix.col ⟨c, h⟩
          ∈ Submodule.span E (a.toMatrix.col '' {j | (j : Nat) < c})} c) ∧
      ∀ other, (a.inverse other).value = (a.inverse pivoting).value := by
  refine ⟨⟨?_, ?_⟩, ?_, fun h => inverse_of_not_isUnit h pivoting, a.inverse_value_eq pivoting⟩
  · rintro ⟨b, hb⟩
    by_contra h
    obtain ⟨c, hc, -⟩ := inverse_of_not_isUnit h pivoting
    rw [hb] at hc
    cases hc
  · intro h
    obtain ⟨b, hb, -⟩ := inverse_of_isUnit h pivoting
    exact ⟨b, hb⟩
  · intro b hb
    rcases a.inverse_cases pivoting with ⟨b', hb', hinverse⟩ | ⟨c, hc, -⟩
    · rw [hb] at hb'
      obtain rfl := Except.ok.inj hb'
      exact hinverse
    · rw [hb] at hc
      cases hc

end DenseMatrix

end DenseNumeric
