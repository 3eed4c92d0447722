import Mathlib
import DenseNumeric.Proofs.FactorZeros
import DenseNumeric.Proofs.FloatSubstitution
import DenseNumeric.Proofs.RequestedVectors

/-!
# Finite eigenvectors

Which arrays have eigenvectors with finite parts only. The vectors of the
triangular form are multiplied with the basis and divided by their lengths, and
neither step is in danger where the form is modest and the entries of the basis
are not very large.

Where the form is not modest a vector may be lost: the first quotient of a
substitution is formed before anything is scaled down, and a large entry over
a smallest gap is out of range.
-/

namespace DenseNumeric

open Binary

variable {n : Nat}

namespace DenseMatrix

variable {t : DenseMatrix n n (Complex Float)}

/-! ## Products and lengths -/

theorem mul_isWithin {a b : DenseMatrix n n (Complex Float)} {α β : ℝ} (hα : 0 ≤ α) (hβ : 0 ≤ β)
    (ha : ∀ i j, i < n → j < n → (a i j).IsWithin α)
    (hb : ∀ i j, i < n → j < n → (b i j).IsWithin β) (hsize : 12 * (α * β) * n < safeBound)
    {i j : Nat} (hi : i < n) (hj : j < n) : ((a.mul b) i j).IsWithin (12 * (α * β) * n) := by
  have hn : (1 : ℝ) ≤ n := by exact_mod_cast Nat.one_le_of_lt hi
  have hαβ := mul_nonneg hα hβ
  have hbound : 0 + 2 * (6 * (α * β)) * (List.range n).length = 12 * (α * β) * n := by
    rw [List.length_range]
    ring
  have hterm : 4 * (α * β) < safeBound := by nlinarith
  rw [mul, apply_of_lt _ hi hj, ← hbound]
  refine Complex.isWithin_foldl (.zero le_rfl) (by positivity) (fun k hk c z hz hroom => ?_)
    (hbound ▸ hsize)
  rw [List.mem_range] at hk
  split
  · exact hz.mono (by linarith)
  · exact hz.add ((ha i k hi hk).mul (hb k j hk hj) hterm) hroom

/-- A list divided by its length, or left as it is if that is zero. -/
theorem normalized_isWithin {zs : List (Complex Float)} {a : ℝ} (hzs : ∀ z ∈ zs, z.IsWithin a)
    (hsize : 8 * (zs.length * a) < safeBound) {z : Complex Float} (hz : z ∈ zs) :
    (if 0 < lengthOf zs then z.divReal (lengthOf zs) else z).IsWithin 1 := by
  have ha : 0 ≤ a := (hzs z hz).re.nonneg
  have hlen : (1 : ℝ) ≤ zs.length := by exact_mod_cast List.length_pos_of_mem hz
  have hsum : (zs.map fun z => ‖z.exact.toC‖ ^ 2).sum ≤ (2 * (zs.length * a)) ^ 2 := by
    have hle := List.sum_le_card_nsmul (zs.map fun z => ‖z.exact.toC‖ ^ 2) ((2 * a) ^ 2) ?_
    · rw [List.length_map, nsmul_eq_mul] at hle
      nlinarith [sq_nonneg (2 * a)]
    · intro y hy
      obtain ⟨w, hw, rfl⟩ := List.mem_map.1 hy
      have hnorm : ‖w.exact.toC‖ ≤ |toReal w.re| + |toReal w.im| :=
        Complex.norm_le_abs_re_add_abs_im w.exact.toC
      exact pow_le_pow_left₀ (norm_nonneg _)
        (by linarith [(hzs w hw).re.abs_le, (hzs w hw).im.abs_le]) 2
  obtain ⟨hfinite, hnonneg, -⟩ := lengthOf_le
    (fun z hz => (hzs z hz).isFinite)
    (by positivity) hsum (by linarith)
  have hwithin := isWithin_lengthOf hfinite hz
  rw [abs_of_nonneg hnonneg] at hwithin
  split
  · rename_i hpos
    rw [float_lt_iff isFinite_zero hfinite, toReal_zero] at hpos
    exact hwithin.divReal hfinite hpos le_rfl
  · rename_i hnot
    rw [float_lt_iff isFinite_zero hfinite, toReal_zero, not_lt] at hnot
    exact hwithin.mono (hnot.trans zero_le_one)

theorem normalizeColumns_isWithin {a : DenseMatrix n n (Complex Float)} {x : ℝ}
    (ha : ∀ i j, i < n → j < n → (a i j).IsWithin x) (hsize : 8 * (n * x) < safeBound)
    {i j : Nat} (hi : i < n) (hj : j < n) : (a.normalizeColumns i j).IsWithin 1 := by
  rw [normalizeColumns, apply_of_lt _ hi hj, getD_ofFn _ _ hj]
  refine normalized_isWithin (a := x) (fun z hz => ?_) (by rwa [List.length_map, List.length_range])
    (List.mem_map.2 ⟨i, List.mem_range.2 hi, rfl⟩)
  obtain ⟨k, hk, rfl⟩ := List.mem_map.1 hz
  exact ha k j (List.mem_range.1 hk) hj

theorem normalizeRows_isWithin {a : DenseMatrix n n (Complex Float)} {x : ℝ}
    (ha : ∀ i j, i < n → j < n → (a i j).IsWithin x) (hsize : 8 * (n * x) < safeBound)
    {i j : Nat} (hi : i < n) (hj : j < n) : (a.normalizeRows i j).IsWithin 1 := by
  rw [normalizeRows, apply_of_lt _ hi hj, getD_ofFn _ _ hi]
  refine normalized_isWithin (a := x) (fun z hz => ?_) (by rwa [List.length_map, List.length_range])
    (List.mem_map.2 ⟨j, List.mem_range.2 hj, rfl⟩)
  obtain ⟨k, hk, rfl⟩ := List.mem_map.1 hz
  exact ha i k hi (List.mem_range.1 hk)

/-! ## Arrays -/

theorem size_vectors_lt (hsize : n < 2 ^ 53) :
    12 * (sizeBound * 1) * n < safeBound ∧ 8 * (n * (12 * (sizeBound * 1) * n)) < safeBound := by
  have hn53 : (n : ℝ) ≤ 2 ^ 53 := by exact_mod_cast hsize.le
  have hn0 : (0 : ℝ) ≤ n := Nat.cast_nonneg n
  have hpos := sizeBound_pos.le
  rw [mul_one]
  have hproduct : 12 * sizeBound * n ≤ 12 * sizeBound * 2 ^ 53 :=
    mul_le_mul_of_nonneg_left hn53 (mul_nonneg (by norm_num) hpos)
  constructor
  · calc 12 * sizeBound * n ≤ 12 * sizeBound * 2 ^ 53 := hproduct
      _ ≤ 2 ^ 57 * sizeBound := by linarith
      _ < safeBound := two_pow_mul_sizeBound_lt (by decide)
  · have hlength : n * (12 * sizeBound * n) ≤ 2 ^ 53 * (12 * sizeBound * 2 ^ 53) :=
      mul_le_mul hn53 hproduct (mul_nonneg (mul_nonneg (by norm_num) hpos) hn0) (by norm_num)
    calc 8 * (n * (12 * sizeBound * n)) ≤ 8 * (2 ^ 53 * (12 * sizeBound * 2 ^ 53)) :=
          mul_le_mul_of_nonneg_left hlength (by norm_num)
      _ ≤ 2 ^ 113 * sizeBound := by linarith
      _ < safeBound := two_pow_mul_sizeBound_lt (by decide)

theorem IsModest.right_isWithin (ht : t.IsModest) (hsize : n < 2 ^ 53)
    {q : DenseMatrix n n (Complex Float)}
    (hq : ∀ i j, i < n → j < n → (q i j).IsWithin sizeBound) {i j : Nat} (hi : i < n)
    (hj : j < n) : ((q.mul t.rightEigenvectors).normalizeColumns i j).IsWithin 1 := by
  obtain ⟨hproduct, hlength⟩ := size_vectors_lt hsize
  refine normalizeColumns_isWithin (fun i j hi hj => ?_) hlength hi hj
  exact mul_isWithin sizeBound_pos.le zero_le_one hq
    (fun i j hi hj => ht.rightEigenvectors_isWithin hsize hi hj) hproduct hi hj

theorem IsModest.left_isWithin (ht : t.IsModest) (hsize : n < 2 ^ 53)
    {q : DenseMatrix n n (Complex Float)}
    (hq : ∀ i j, i < n → j < n → (q i j).IsWithin sizeBound) {i j : Nat} (hi : i < n)
    (hj : j < n) : ((t.leftEigenvectors.mul q.adjoint).normalizeRows i j).IsWithin 1 := by
  obtain ⟨hproduct, hlength⟩ := size_vectors_lt hsize
  rw [mul_comm sizeBound] at hproduct hlength
  refine normalizeRows_isWithin (fun i j hi hj => ?_) hlength hi hj
  refine mul_isWithin zero_le_one sizeBound_pos.le
    (fun i j hi hj => ht.leftEigenvectors_isWithin hsize hi hj) (fun i j hi hj => ?_) hproduct hi hj
  rw [adjoint, apply_of_lt _ hi hj]
  exact (hq j i hj hi).conj

end DenseMatrix

namespace NumArray

/-- All parts of all elements are finite. -/
def IsFinite (a : NumArray) : Prop :=
  ∀ row col, row < a.nrows → col < a.ncols → (a.entry row col).isFinite = true

theorem isFinite_toNumArray {m : DenseMatrix n n (Complex Float)}
    (hm : ∀ i j, i < n → j < n → (m i j).IsWithin 1) (dtype : DType) :
    (m.toNumArray dtype.complexCounterpart).IsFinite := by
  intro row col hrow hcol
  have hdtype := dtype.isComplex_complexCounterpart
  rw [m.entry_toNumArray hdtype hrow hcol]
  exact Complex.isFinite_iff.2 ⟨((hm row col hrow hcol).re.quantize hdtype).isFinite,
    ((hm row col hrow hcol).im.quantize hdtype).isFinite⟩

theorem isFinite_toNumArray_identity (dtype : DType) :
    ((.identity : DenseMatrix n n (Complex Float)).toNumArray
      dtype.complexCounterpart).IsFinite := by
  refine isFinite_toNumArray (fun i j hi hj => ?_) dtype
  rw [DenseMatrix.identity, DenseMatrix.apply_of_lt _ hi hj]
  split
  · exact .one
  · exact .zero zero_le_one

/-- If the triangular form is modest, and so is the basis, then all
eigenvectors that were asked for are finite. -/
theorem eig_vectors_isFinite {a : NumArray} {options : EigenOptions} {p : Similar n Float}
    (hn : squareOrder a.dims = .ok n) (hsize : n < 2 ^ 53)
    (hp : (((a.toMatrix n).hessenberg (options.left || options.right)).triangularize
      options.maxIterations).value = .ok p)
    (ht : p.matrix.IsModest)
    (hq : ∀ q ∈ p.basis, ∀ i j, i < n → j < n → (q i j).IsWithin sizeBound) :
    ∃ s, (a.eig options).value = .ok s ∧ (∀ v ∈ s.left, v.IsFinite) ∧
      ∀ v ∈ s.right, v.IsFinite := by
  rw [value_eig_of_order hn]
  by_cases hone : n = 1
  · rw [DenseMatrix.eigensystem, if_pos hone]
    refine ⟨_, rfl, fun v hv => ?_, fun v hv => ?_⟩
    · obtain ⟨m, hm, rfl⟩ := Option.mem_map.1 hv
      obtain ⟨-, hm⟩ := Option.ite_none_right_eq_some.1 hm
      obtain rfl := Option.some.inj hm
      exact isFinite_toNumArray_identity a.dtype
    · obtain ⟨m, hm, rfl⟩ := Option.mem_map.1 hv
      obtain ⟨-, hm⟩ := Option.ite_none_right_eq_some.1 hm
      obtain rfl := Option.some.inj hm
      exact isFinite_toNumArray_identity a.dtype
  · rw [DenseMatrix.eigensystem_of_ne_one hone, hp]
    refine ⟨_, rfl, fun v hv => ?_, fun v hv => ?_⟩
    · obtain ⟨m, hm, rfl⟩ := Option.mem_map.1 hv
      obtain ⟨-, hm⟩ := Option.ite_none_right_eq_some.1 hm
      obtain ⟨q, hmem, rfl⟩ := Option.mem_map.1 hm
      exact isFinite_toNumArray (fun i j hi hj => ht.left_isWithin hsize (hq q hmem) hi hj) a.dtype
    · obtain ⟨m, hm, rfl⟩ := Option.mem_map.1 hv
      obtain ⟨-, hm⟩ := Option.ite_none_right_eq_some.1 hm
      obtain ⟨q, hmem, rfl⟩ := Option.mem_map.1 hm
      exact isFinite_toNumArray (fun i j hi hj => ht.right_isWithin hsize (hq q hmem) hi hj) a.dtype

/-- A defective matrix: its one eigenvalue has one eigenvector, and the gap
between the two diagonal entries is the least one. -/
def repeatedEigenvalue : NumArray := ⟨.matrix 2 2, ⟨.f64, #[1, 1, 0, 1], none⟩⟩

theorem eig_vectors_isFinite_repeatedEigenvalue :
    ∃ p : Similar 2 Float,
      (squareOrder repeatedEigenvalue.dims = .ok 2 ∧ 2 < 2 ^ 53 ∧
        (((repeatedEigenvalue.toMatrix 2).hessenberg true).triangularize 60).value = .ok p ∧
        p.matrix.IsModest ∧ ∀ q ∈ p.basis, ∀ i j, i < 2 → j < 2 → (q i j).IsWithin sizeBound) ∧
      ∃ s, (repeatedEigenvalue.eig ⟨true, true, 60⟩).value = .ok s ∧
        (∀ v ∈ s.left, v.IsFinite) ∧ ∀ v ∈ s.right, v.IsFinite := by
  have hrun : (((repeatedEigenvalue.toMatrix 2).hessenberg true).triangularize 60).value.map
      (fun p => (p.matrix, p.basis))
      = .ok (.ofFn fun i j => if i ≤ j then 1 else 0, some .identity) := by
    decide +kernel
  obtain ⟨⟨t, basis⟩, hp, heq⟩ := map_eq_ok.1 hrun
  obtain ⟨rfl, rfl⟩ := Prod.mk.inj heq
  have hone : (1 : ℝ) ≤ sizeBound := sizeBound_eq ▸ one_le_pow₀ one_le_two
  have hentry {c : Prop} [Decidable c] : (if c then 1 else 0 : Complex Float).IsWithin 1 := by
    split
    exacts [.one, .zero zero_le_one]
  have ht : (DenseMatrix.ofFn fun i j => if i ≤ j then 1 else 0 :
      DenseMatrix 2 2 (Complex Float)).IsModest := by
    refine ⟨fun j k hj hk => ?_, fun i _ => ⟨1, zero_le_one, hone, fun j k hjk hk => ?_, .inl ?_⟩⟩
    · rw [DenseMatrix.apply_of_lt _ hj hk]
      exact hentry.mono hone
    · rw [DenseMatrix.apply_of_lt _ (hjk.trans hk) hk]
      exact hentry
    · exact one_le_pow₀ one_le_two
  have hq : ∀ q ∈ some (DenseMatrix.identity : DenseMatrix 2 2 (Complex Float)), ∀ i j, i < 2 →
      j < 2 → (q i j).IsWithin sizeBound := by
    intro q hmem i j hi hj
    obtain rfl := Option.mem_some.1 hmem
    rw [DenseMatrix.identity, DenseMatrix.apply_of_lt _ hi hj]
    exact hentry.mono hone
  exact ⟨_, ⟨rfl, by decide, hp, ht, hq⟩, eig_vectors_isFinite rfl (by decide) hp ht hq⟩

/-- A single large number above a diagonal of zeros. -/
def hugeAboveDiagonal : NumArray :=
  ⟨.matrix 2 2, ⟨.f64, #[0, .ofBits 0x7e70000000000000, 0, 0], none⟩⟩

/-- The first quotient is out of range before anything is scaled down. -/
theorem eig_hugeAboveDiagonal :
    hugeAboveDiagonal.IsFinite ∧ ∃ s v, (hugeAboveDiagonal.eig {}).value = .ok s ∧
      s.values = ⟨.vector 2, ⟨.c128, #[0, 0], some #[0, 0]⟩⟩ ∧ s.right = some v ∧ ¬v.IsFinite := by
  have hfinite : ∀ row col : Fin 2, (hugeAboveDiagonal.entry row col).isFinite = true := by
    decide +kernel
  have heig : (hugeAboveDiagonal.eig {}).value = .ok {
      values := ⟨.vector 2, ⟨.c128, #[0, 0], some #[0, 0]⟩⟩
      left := none
      right := some ⟨.matrix 2 2, ⟨.c128, #[1, 0 / 0, 0, 0], some #[0, 0 / 0, 0, 0]⟩⟩ } := by
    decide +kernel
  refine ⟨fun row col hrow hcol => hfinite ⟨row, hrow⟩ ⟨col, hcol⟩, _, _, heig, rfl, rfl, ?_⟩
  intro hvectors
  exact absurd (hvectors 0 1 Nat.two_pos Nat.one_lt_two) (by decide +kernel)

end NumArray

end DenseNumeric
