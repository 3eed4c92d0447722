import Mathlib
import DenseNumeric.NumArray.Decomposition
import DenseNumeric.Proofs.FloatLengths
import DenseNumeric.Proofs.RunLength
import DenseNumeric.Proofs.SchurForm

/-!
# What a deflation drops

A subdiagonal entry is dropped when its rounded length is below the rounded
product of the rounding unit and a yardstick: the two diagonal entries next to
it or, if those are small, the norm of the matrix that the run began with. All
of this is computed in double precision. The yardstick is less than four times
as long as one of two matrices that are not too large: the one that the run
began with, or the one that the entry is in. Then, as rounding keeps order, the
entry is at most four rounding units.

The yardstick may overflow at the upper end of the range, and then an infinity
is compared with, beside which every finite entry is negligible.
-/

namespace DenseNumeric

open Binary Matrix
open scoped Matrix.Norms.Frobenius

variable {n : Nat}

/-! ## The norm of a matrix of doubles -/

/-- Sizes up to here leave room for the sums and products of a comparison. -/
noncomputable def roomyBound : ℝ := ((2 : ℕ) : ℝ) ^ 1020

theorem roomyBound_eq : roomyBound = 2 ^ 1020 := by rw [roomyBound, Nat.cast_ofNat]

theorem eight_mul_roomyBound : 8 * roomyBound = safeBound := by
  have hsplit : (2 : ℝ) ^ 1023 = 2 ^ 3 * 2 ^ 1020 := pow_add 2 3 1020
  rw [safeBound_eq, hsplit, roomyBound_eq]
  congr 1
  norm_num

theorem roomyBound_pos : 0 < roomyBound := roomyBound_eq ▸ pow_pos two_pos 1020

namespace DenseMatrix

variable {a : DenseMatrix n n (Complex Float)}

theorem norm_exact_le (a : DenseMatrix n n (Complex Float)) {i j : Nat} (hi : i < n) (hj : j < n) :
    ‖(a i j).exact.toC‖ ≤ ‖a.exact.toCMatrix‖ := by
  have hentry : (a i j).exact.toC = a.exact.toCMatrix ⟨i, hi⟩ ⟨j, hj⟩ := by
    rw [toCMatrix_apply, exact_apply a hi hj]
  refine (sq_le_sq₀ (norm_nonneg _) (norm_nonneg _)).1 ?_
  rw [hentry, frobenius_sq]
  calc ‖a.exact.toCMatrix ⟨i, hi⟩ ⟨j, hj⟩‖ ^ 2
      ≤ ∑ l, ‖a.exact.toCMatrix ⟨i, hi⟩ l‖ ^ 2 :=
        Finset.single_le_sum (f := fun l => ‖a.exact.toCMatrix ⟨i, hi⟩ l‖ ^ 2)
          (fun _ _ => by positivity) (Finset.mem_univ _)
    _ ≤ ∑ k, ∑ l, ‖a.exact.toCMatrix k l‖ ^ 2 :=
        Finset.single_le_sum (f := fun k => ∑ l, ‖a.exact.toCMatrix k l‖ ^ 2)
          (fun _ _ => by positivity) (Finset.mem_univ _)

/-- The entries that the norm reads are no longer than the matrix. -/
theorem sum_band_le (a : DenseMatrix n n (Complex Float)) :
    (((List.range n).flatMap fun j => (List.range (min (j + 2) n)).map (a · j)).map
      fun z => ‖z.exact.toC‖ ^ 2).sum ≤ ‖a.exact.toCMatrix‖ ^ 2 := by
  rw [sum_map_flatMap, sum_map_range, frobenius_sq, Finset.sum_comm]
  refine Finset.sum_le_sum fun j _ => ?_
  rw [List.map_map, sum_map_range, Fin.sum_univ_eq_sum_range
    (fun i => ((fun z : Complex Float => ‖z.exact.toC‖ ^ 2) ∘ (a · j)) i)]
  have hcolumn : ∑ i : Fin n, ‖a.exact.toCMatrix i j‖ ^ 2
      = ∑ i ∈ Finset.range n, ‖(a i j).exact.toC‖ ^ 2 := by
    rw [← Fin.sum_univ_eq_sum_range (fun i => ‖(a i j).exact.toC‖ ^ 2)]
    refine Finset.sum_congr rfl fun i _ => ?_
    rw [toCMatrix_apply, exact_apply a i.isLt j.isLt]
  rw [hcolumn]
  exact Finset.sum_le_sum_of_subset_of_nonneg (Finset.range_mono (Nat.min_le_right _ _))
    fun _ _ _ => sq_nonneg _

theorem isFinite_of_mem_band (ha : a.IsFinite) {z : Complex Float}
    (hz : z ∈ (List.range n).flatMap fun j => (List.range (min (j + 2) n)).map (a · j)) :
    z.isFinite = true := by
  obtain ⟨j, hj, hz⟩ := List.mem_flatMap.1 hz
  obtain ⟨i, hi, rfl⟩ := List.mem_map.1 hz
  rw [List.mem_range] at hi hj
  exact ha i j (by omega) hj

theorem meanNorm_le (ha : a.IsFinite) (hn : 0 < n) (hsize : n < 2 ^ 53)
    (hnorm : ‖a.exact.toCMatrix‖ ≤ roomyBound) :
    (meanNorm a).isFinite = true ∧ 0 ≤ toReal (meanNorm a) ∧
      toReal (meanNorm a) ≤ 32 / 9 * ‖a.exact.toCMatrix‖ := by
  set length := lengthOf
    ((List.range n).flatMap fun j => (List.range (min (j + 2) n)).map (a · j)) with hlength
  have hmean : meanNorm a = length / (n : Float) := rfl
  have hsize' : 4 * ‖a.exact.toCMatrix‖ < safeBound := by
    linarith [eight_mul_roomyBound, roomyBound_pos]
  obtain ⟨hfinite, hnonneg, hle⟩ := lengthOf_le (fun z hz => isFinite_of_mem_band ha hz)
    (norm_nonneg _) (sum_band_le a) hsize'
  rw [← hlength] at hfinite hnonneg hle
  have horder : (1 : ℝ) ≤ n := by exact_mod_cast hn
  have hvalue := toReal_natCast hsize
  have hdiv : toReal length / n ≤ toReal length := div_le_self hnonneg horder
  have hdiv0 : 0 ≤ toReal length / n := div_nonneg hnonneg (by linarith)
  have hround : RoundsTo (toReal length / n) (meanNorm a) := by
    have := rounds_div hfinite (roundsTo_natCast hsize).isFinite (by rw [hvalue]; positivity)
    rw [hvalue] at this
    refine this.roundsTo ?_
    rw [abs_of_nonneg hdiv0]
    linarith
  refine ⟨hround.isFinite, hround.isNearest.nonneg hdiv0, ?_⟩
  exact (hround.isNearest.le_of_le (isNumber_toReal hfinite) hdiv).trans hle

end DenseMatrix

/-! ## The yardstick -/

namespace QrState

/-- What the rounding unit is multiplied with before the subdiagonal entry in
column `k` is compared with it. -/
def yardstick {R : Type} [Arith R] (s : QrState n R) (norm : R) (k : Nat) : R :=
  let a := s.current.matrix
  let neighbours := (a k k).taxicab + (a (k + 1) (k + 1)).taxicab
  if neighbours < Arith.epsilon * norm then norm else neighbours

theorem magnitude_lt_of_negligible? {R : Type} [Arith R] {s : QrState n R} {norm : R} {k : Nat}
    (h : s.negligible? norm = some k) :
    (s.current.matrix (k + 1) k).magnitude < Arith.epsilon * s.yardstick norm k := by
  have := List.find?_some h
  rwa [decide_eq_true_eq] at this

/-- Two neighbours on the diagonal, measured and added up with rounding. -/
theorem neighbours_le {a : DenseMatrix n n (Complex Float)} {k : Nat} {bound : ℝ}
    (ha : a.IsFinite) (hk : k + 1 < n) (hbound : ‖a.exact.toCMatrix‖ ≤ bound)
    (hroom : bound ≤ roomyBound) :
    let neighbours := (a k k).taxicab + (a (k + 1) (k + 1)).taxicab
    neighbours.isFinite = true ∧ 0 ≤ toReal neighbours ∧ toReal neighbours ≤ 32 / 9 * bound := by
  set z := a k k
  set w := a (k + 1) (k + 1)
  have hz : z.isFinite = true := ha k k (by omega) (by omega)
  have hw : w.isFinite = true := ha (k + 1) (k + 1) hk hk
  have hpair : ‖z.exact.toC‖ ^ 2 + ‖w.exact.toC‖ ^ 2 ≤ bound ^ 2 := by
    have hdiag := norm_sq_diag_pair_le a.exact.toCMatrix
      (i := ⟨k, by omega⟩) (k := ⟨k + 1, hk⟩) (by simp)
    rw [DenseMatrix.toCMatrix_apply, DenseMatrix.toCMatrix_apply,
      DenseMatrix.exact_apply a (by omega) (by omega), DenseMatrix.exact_apply a hk hk] at hdiag
    exact hdiag.trans (pow_le_pow_left₀ (norm_nonneg _) hbound 2)
  have hbound0 : 0 ≤ bound := (norm_nonneg _).trans hbound
  have hroom' := eight_mul_roomyBound
  have hpos := roomyBound_pos
  -- the four parts together are at most twice the length of the pair
  have hsum : z.exact.taxicab + w.exact.taxicab ≤ 2 * bound := by
    refine (abs_le_of_sq_le_sq' ?_ (by linarith)).2
    nlinarith [Complex.taxicab_sq_le z.exact, Complex.taxicab_sq_le w.exact,
      sq_nonneg (z.exact.taxicab - w.exact.taxicab)]
  have hz0 := Complex.taxicab_nonneg z.exact
  have hw0 := Complex.taxicab_nonneg w.exact
  have hzsize : z.exact.taxicab < safeBound := by linarith
  have hwsize : w.exact.taxicab < safeBound := by linarith
  have hzround := Complex.taxicab_roundsTo hz hzsize
  have hwround := Complex.taxicab_roundsTo hw hwsize
  have hzle : toReal z.taxicab ≤ 4 / 3 * z.exact.taxicab := Complex.taxicab_le hz hzsize
  have hwle : toReal w.taxicab ≤ 4 / 3 * w.exact.taxicab := Complex.taxicab_le hw hwsize
  have hz0' := hzround.isNearest.nonneg hz0
  have hw0' := hwround.isNearest.nonneg hw0
  have hround : RoundsTo (toReal z.taxicab + toReal w.taxicab) (z.taxicab + w.taxicab) := by
    refine (rounds_add hzround.isFinite hwround.isFinite).roundsTo ?_
    rw [abs_of_nonneg (add_nonneg hz0' hw0')]
    linarith
  refine ⟨hround.isFinite, hround.isNearest.nonneg (add_nonneg hz0' hw0'), ?_⟩
  have := hround.isNearest.add_le (isNumber_toReal hzround.isFinite)
    (isNumber_toReal hwround.isFinite) hz0' hw0'
  linarith

theorem yardstick_le {s : QrState n Float} {norm : Float} {k : Nat} {bound : ℝ}
    (hs : s.current.matrix.IsFinite) (hk : k + 1 < n)
    (hbound : ‖s.current.matrix.exact.toCMatrix‖ ≤ bound) (hroom : bound ≤ roomyBound)
    (hnorm : norm.isFinite = true) (hnorm0 : 0 ≤ toReal norm)
    (hnorm' : toReal norm ≤ 32 / 9 * bound) :
    (s.yardstick norm k).isFinite = true ∧ 0 ≤ toReal (s.yardstick norm k) ∧
      toReal (s.yardstick norm k) ≤ 32 / 9 * bound := by
  simp only [yardstick]
  split
  · exact ⟨hnorm, hnorm0, hnorm'⟩
  · exact neighbours_le hs hk hbound hroom

/-- An entry that is found negligible is less than four rounding units, beside
the longer of two matrices: the one that the run began with, and the one that
the entry is in. -/
theorem norm_le_of_negligible? {p : DenseMatrix n n (Complex Float)} {s : QrState n Float}
    {k : Nat} {bound : ℝ} (hp : p.IsFinite) (hs : s.current.matrix.IsFinite) (hsize : n < 2 ^ 53)
    (hk : k + 1 < n) (h : s.negligible? (meanNorm p) = some k)
    (hpbound : ‖p.exact.toCMatrix‖ ≤ bound)
    (hsbound : ‖s.current.matrix.exact.toCMatrix‖ ≤ bound) (hroom : bound ≤ roomyBound) :
    ‖(s.current.matrix (k + 1) k).exact.toC‖ ≤ 32 / 9 * 2 ^ (-52 : ℤ) * bound := by
  set z := s.current.matrix (k + 1) k
  have hroom' := eight_mul_roomyBound
  have hpos := roomyBound_pos
  obtain ⟨hmean, hmean0, hmean'⟩ :=
    DenseMatrix.meanNorm_le hp (by omega) hsize (hpbound.trans hroom)
  obtain ⟨hfinite, hnonneg, hle⟩ := yardstick_le (k := k) hs hk hsbound hroom hmean hmean0
    (hmean'.trans (by linarith))
  set weight := s.yardstick (meanNorm p) k
  have hz : z.isFinite = true := hs (k + 1) k hk (by omega)
  have hzsize : ‖z.exact.toC‖ < safeBound := by
    have := s.current.matrix.norm_exact_le hk (show k < n by omega)
    linarith
  have hmag := Complex.magnitude_roundsTo hz hzsize
  have hproduct := epsilon_mul_roundsTo hfinite
  have hlt := (float_lt_iff hmag.isFinite hproduct.isFinite).1 (magnitude_lt_of_negligible? h)
  -- were the entry longer than the product, so would it be when both are rounded
  have hexact : ‖z.exact.toC‖ ≤ 2 ^ (-52 : ℤ) * toReal weight :=
    le_of_not_gt fun hgt => absurd (hproduct.isNearest.le_of_lt hmag.isNearest hgt) (not_le.2 hlt)
  calc ‖z.exact.toC‖ ≤ 2 ^ (-52 : ℤ) * (32 / 9 * bound) :=
        hexact.trans (mul_le_mul_of_nonneg_left hle (zpow_pos two_pos _).le)
    _ = 32 / 9 * 2 ^ (-52 : ℤ) * bound := by rw [← mul_assoc, mul_comm (2 ^ (-52 : ℤ))]

/-! ## The deflations of a run -/

theorem after_high_le {R : Type} [Arith R] (norm : R) (s : QrState n R) (t : Nat) :
    (s.after norm t).high ≤ s.high := by
  induction t with
  | zero => exact Nat.le_refl _
  | succ t ih =>
      rw [after_succ, step]
      split
      · rename_i k hk
        have := negligible?_bounds hk
        simp only [deflate]
        split <;> omega
      · exact ih

/-- Until the first sweep, entries are only dropped. -/
theorem after_apply_of_sweeps_eq_zero {R : Type} [Arith R] {norm : R} {s : QrState n R} {t : Nat}
    (h : (s.after norm t).sweeps = 0) {i j : Nat} (hi : i < n) (hj : j < n) :
    (s.after norm t).current.matrix i j = s.current.matrix i j ∨
      (s.after norm t).current.matrix i j = 0 := by
  induction t with
  | zero => exact .inl rfl
  | succ t ih =>
      rw [after_succ, step] at h ⊢
      split at h
      · simp only [deflate] at h ⊢
        rw [DenseMatrix.get_set _ _ _ _ hi hj]
        split
        · exact .inr rfl
        · exact ih h
      · exact absurd h (Nat.succ_ne_zero _)

end QrState

namespace DenseMatrix

/-- A matrix with some entries dropped. -/
theorem of_apply_eq_or_zero {a b : DenseMatrix n n (Complex Float)} (hb : b.IsFinite)
    (h : ∀ i j, i < n → j < n → a i j = b i j ∨ a i j = 0) :
    a.IsFinite ∧ ‖a.exact.toCMatrix‖ ≤ ‖b.exact.toCMatrix‖ := by
  constructor
  · intro i j hi hj
    rcases h i j hi hj with heq | hzero
    · rw [heq]
      exact hb i j hi hj
    · rw [hzero]
      rfl
  · refine (sq_le_sq₀ (norm_nonneg _) (norm_nonneg _)).1 ?_
    rw [frobenius_sq, frobenius_sq]
    refine Finset.sum_le_sum fun i _ => Finset.sum_le_sum fun j _ => ?_
    rw [toCMatrix_apply, toCMatrix_apply, exact_apply a i.isLt j.isLt, exact_apply b i.isLt j.isLt]
    rcases h i j i.isLt j.isLt with heq | hzero
    · rw [heq]
    · rw [hzero, Complex.norm_toC_exact]
      simp [toReal_zero]

end DenseMatrix

/-- The entry that a deflation drops, after any number of steps, is at most four
rounding units of the matrix that the run began with, if that is not too large.
Before the first sweep nothing else is asked; later the matrix must not have
become longer by more than an eighth, through the rounding of the rotations. -/
theorem Similar.norm_deflated_le {p : Similar n Float} {t k : Nat} (hp : p.matrix.IsFinite)
    (hsize : n < 2 ^ 53) (hnorm : ‖p.matrix.exact.toCMatrix‖ ≤ 2 ^ 1019) :
    let norm := meanNorm p.matrix
    let s := (⟨p, 0, n, 0, 0, []⟩ : QrState n Float).after norm t
    s.negligible? norm = some k →
      (s.sweeps = 0 ∨ s.current.matrix.IsFinite ∧
        ‖s.current.matrix.exact.toCMatrix‖ ≤ 9 / 8 * ‖p.matrix.exact.toCMatrix‖) →
      ‖(s.current.matrix (k + 1) k).exact.toC‖ ≤
        4 * 2 ^ (-52 : ℤ) * ‖p.matrix.exact.toCMatrix‖ := by
  intro norm s hk hgrowth
  have hp0 := norm_nonneg p.matrix.exact.toCMatrix
  have hhigh : s.high ≤ n := QrState.after_high_le norm _ t
  have hkn : k + 1 < n := (QrState.negligible?_bounds hk).2.trans_le hhigh
  obtain ⟨hs, hsnorm⟩ : s.current.matrix.IsFinite ∧
      ‖s.current.matrix.exact.toCMatrix‖ ≤ 9 / 8 * ‖p.matrix.exact.toCMatrix‖ := by
    rcases hgrowth with hstart | hgrowth
    · obtain ⟨hs, hsnorm⟩ := DenseMatrix.of_apply_eq_or_zero hp fun i j hi hj =>
        QrState.after_apply_of_sweeps_eq_zero hstart hi hj
      exact ⟨hs, hsnorm.trans (by linarith)⟩
    · exact hgrowth
  have hroom : 9 / 8 * ‖p.matrix.exact.toCMatrix‖ ≤ roomyBound := by
    have hsplit : roomyBound = 2 * 2 ^ 1019 := by rw [roomyBound_eq, pow_succ' 2 1019]
    rw [hsplit]
    exact mul_le_mul (by norm_num) hnorm hp0 zero_le_two
  calc ‖(s.current.matrix (k + 1) k).exact.toC‖
      ≤ 32 / 9 * 2 ^ (-52 : ℤ) * (9 / 8 * ‖p.matrix.exact.toCMatrix‖) :=
        QrState.norm_le_of_negligible? hp hs hsize hkn hk (by linarith) hsnorm hroom
    _ = 4 * 2 ^ (-52 : ℤ) * ‖p.matrix.exact.toCMatrix‖ := by ring

/-- A Jordan block, after the one sweep that makes it triangular. -/
theorem Similar.norm_deflated_le_jordanBlock :
    let p : Similar 2 Float := ⟨.ofFn fun i j => if i < j then 0 else 1, none⟩
    let s := (⟨p, 0, 2, 0, 0, []⟩ : QrState 2 Float).after (meanNorm p.matrix) 1
    (p.matrix.IsFinite ∧ 2 < 2 ^ 53 ∧ ‖p.matrix.exact.toCMatrix‖ ≤ 2 ^ 1019) ∧
      s.negligible? (meanNorm p.matrix) = some 0 ∧ s.sweeps = 1 ∧
      (s.current.matrix.IsFinite ∧
        ‖s.current.matrix.exact.toCMatrix‖ ≤ 9 / 8 * ‖p.matrix.exact.toCMatrix‖) ∧
      ‖(s.current.matrix 1 0).exact.toC‖ ≤ 4 * 2 ^ (-52 : ℤ) * ‖p.matrix.exact.toCMatrix‖ := by
  intro p s
  have hpentry : ∀ i j : Fin 2, p.matrix i j = if i < j then 0 else 1 := by decide +kernel
  have hsentry : ∀ i j : Fin 2,
      s.current.matrix i j = if j < i then 0 else if i = j then 1 else ⟨-1, 0⟩ := by
    decide +kernel
  have hp : p.matrix.IsFinite := by
    intro i j hi hj
    rw [show p.matrix i j = _ from hpentry ⟨i, hi⟩ ⟨j, hj⟩]
    split <;> rfl
  have hs : s.current.matrix.IsFinite := by
    intro i j hi hj
    rw [show s.current.matrix i j = _ from hsentry ⟨i, hi⟩ ⟨j, hj⟩]
    split
    · rfl
    · split <;> decide +kernel
  -- three entries of length one, before and after
  have hzero : ‖(0 : Complex Float).exact.toC‖ = 0 := by
    simp [Complex.norm_toC_exact, toReal_zero]
  have hone : ‖(1 : Complex Float).exact.toC‖ = 1 := by
    simp [Complex.norm_toC_exact, toReal_zero, toReal_one]
  have hminus : ‖(⟨-1, 0⟩ : Complex Float).exact.toC‖ = 1 := by
    simp [Complex.norm_toC_exact, (neg_spec isFinite_one).2, toReal_zero, toReal_one]
  have hpnorm : ‖p.matrix.exact.toCMatrix‖ ^ 2 = 3 := by
    simp only [frobenius_sq, DenseMatrix.toCMatrix_apply,
      DenseMatrix.exact_apply _ (Fin.isLt _) (Fin.isLt _), hpentry]
    norm_num [Fin.sum_univ_two, hzero, hone]
  have hsnorm : ‖s.current.matrix.exact.toCMatrix‖ ^ 2 = 3 := by
    simp only [frobenius_sq, DenseMatrix.toCMatrix_apply,
      DenseMatrix.exact_apply _ (Fin.isLt _) (Fin.isLt _), hsentry]
    norm_num [Fin.sum_univ_two, hzero, hone, hminus]
  have hp0 := norm_nonneg p.matrix.exact.toCMatrix
  have hnorm : ‖p.matrix.exact.toCMatrix‖ ≤ 2 ^ 1019 := by
    calc ‖p.matrix.exact.toCMatrix‖ ≤ 2 := by nlinarith
      _ ≤ 2 ^ 1019 := le_self_pow₀ one_le_two (by decide)
  have hgrowth : ‖s.current.matrix.exact.toCMatrix‖ ≤ 9 / 8 * ‖p.matrix.exact.toCMatrix‖ := by
    have hsame : ‖s.current.matrix.exact.toCMatrix‖ = ‖p.matrix.exact.toCMatrix‖ :=
      (sq_eq_sq₀ (norm_nonneg _) hp0).1 (hsnorm.trans hpnorm.symm)
    linarith
  have hk : s.negligible? (meanNorm p.matrix) = some 0 := by decide +kernel
  have hsweeps : s.sweeps = 1 := by decide +kernel
  exact ⟨⟨hp, by decide, hnorm⟩, hk, hsweeps, ⟨hs, hgrowth⟩,
    Similar.norm_deflated_le hp (by decide) hnorm hk (.inr ⟨hs, hgrowth⟩)⟩

/-- Two entries off the diagonal, whose length together is out of range. -/
def NumArray.hugeOffDiagonal : NumArray :=
  ⟨.matrix 2 2, ⟨.f64, #[0, .ofBits 0x7fe8000000000000, .ofBits 0x7fe8000000000000, 0], none⟩⟩

/-- The norm is infinite, so both entries that matter are dropped, and the
eigenvalues are zeros. -/
theorem NumArray.eigvals_hugeOffDiagonal :
    let p := (hugeOffDiagonal.toMatrix 2).hessenberg false
    let s : QrState 2 Float := ⟨p, 0, 2, 0, 0, []⟩
    p.matrix.IsHessenberg ∧ p.matrix.IsFinite ∧ s.negligible? (meanNorm p.matrix) = some 0 ∧
      4 * 2 ^ (-52 : ℤ) * ‖p.matrix.exact.toCMatrix‖ < ‖(p.matrix 1 0).exact.toC‖ ∧
      hugeOffDiagonal.eigvals.value = .ok ⟨.vector 2, ⟨.c128, #[0, 0], some #[0, 0]⟩⟩ := by
  intro p s
  set m : Float := .ofBits 0x7fe8000000000000
  have hentry : ∀ i j : Fin 2, p.matrix i j = if i = j then 0 else ⟨m, 0⟩ := by
    decide +kernel
  have hm : m.isFinite = true := by decide +kernel
  have hm0 : 0 < toReal m := by
    have := (float_lt_iff isFinite_zero hm).1 (by decide +kernel)
    rwa [toReal_zero] at this
  have hfinite : p.matrix.IsFinite := by
    intro i j hi hj
    rw [show p.matrix i j = _ from hentry ⟨i, hi⟩ ⟨j, hj⟩]
    split <;> decide +kernel
  have hlength : ‖(⟨m, 0⟩ : Complex Float).exact.toC‖ = toReal m := by
    rw [Complex.norm_toC_exact, toReal_zero, zero_pow two_ne_zero, add_zero, Real.sqrt_sq hm0.le]
  have hle : ∀ i j, ‖p.matrix.exact.toCMatrix i j‖ ≤ toReal m := by
    intro i j
    rw [DenseMatrix.toCMatrix_apply, DenseMatrix.exact_apply _ i.isLt j.isLt, hentry]
    split
    · rw [Complex.norm_toC_exact]
      simpa [toReal_zero] using hm0.le
    · exact hlength.le
  have hnorm : ‖p.matrix.exact.toCMatrix‖ ≤ 2 * toReal m := by
    refine (abs_le_of_sq_le_sq' ?_ (by linarith)).2
    rw [frobenius_sq, Fin.sum_univ_two, Fin.sum_univ_two, Fin.sum_univ_two]
    have hsq i j := pow_le_pow_left₀ (norm_nonneg _) (hle i j) 2
    linarith [hsq 0 0, hsq 0 1, hsq 1 0, hsq 1 1]
  refine ⟨?_, hfinite, by decide +kernel, ?_, by decide +kernel⟩
  · intro i j hi hj
    omega
  · rw [show p.matrix 1 0 = _ from hentry 1 0, if_neg (by decide), hlength]
    calc 4 * 2 ^ (-52 : ℤ) * ‖p.matrix.exact.toCMatrix‖
        ≤ 4 * 2 ^ (-52 : ℤ) * (2 * toReal m) := mul_le_mul_of_nonneg_left hnorm (by positivity)
      _ = 2 ^ (-49 : ℤ) * toReal m := by norm_num; ring
      _ < toReal m := mul_lt_of_lt_one_left hm0 (by norm_num)

end DenseNumeric
