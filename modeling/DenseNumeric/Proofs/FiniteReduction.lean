import Mathlib
import DenseNumeric.Proofs.NullParts
import DenseNumeric.Proofs.ReflectedMatrices

/-!
# The reduction of finite matrices

When the basis of the reduction is finite. Each row is divided by a sum of its
taxicab lengths when its turn comes (`rowScale`), and that sum decides: if it is
an infinity, the division leaves nothing of the row, and the basis is undefined
from then on. If it is not, for any row, the basis is finite.

How large the sums become depends on the matrix as it is by then. An invariant
of the reduction bounds it by the matrix at the start: the block that the rows
to come are read from is not lengthened much.
-/

namespace DenseNumeric

open Binary

namespace Reduction

open Reflection

/-! ## The turn of a row -/

section Turns

variable {R : Type} [Arith R] {n : Nat} (a : DenseMatrix n n (Complex R))

/-- The reduction when row `i` has its turn: the rows below it are done. -/
def atTurn (i : Nat) : Reduction n R :=
  (List.range' (i + 1) (n - 1 - i)).reverse.foldl clearRow ⟨a, []⟩

/-- The sum of taxicab lengths that row `i` is divided by. -/
def rowScale (i : Nat) : R := scaleOf i ((atTurn a i).matrix i)

theorem ofMatrix_eq_atTurn : ofMatrix a = atTurn a 1 := by
  rw [ofMatrix, atTurn, Nat.sub_sub]

theorem atTurn_of_le {i : Nat} (hi : n ≤ i + 1) : atTurn a i = ⟨a, []⟩ := by
  rw [atTurn, show n - 1 - i = 0 by omega]
  rfl

theorem atTurn_eq_clearRow {i : Nat} (hi : i + 1 < n) :
    atTurn a i = (atTurn a (i + 1)).clearRow (i + 1) := by
  obtain ⟨k, hk⟩ : ∃ k, n - 1 - i = k + 1 := ⟨n - 2 - i, by omega⟩
  rw [atTurn, atTurn, hk, show n - 1 - (i + 1) = k by omega, List.range'_succ, List.reverse_cons,
    List.foldl_append]
  rfl

/-- What a row hands on to the one above it, from the last row up. -/
theorem atTurn_induction {P : Nat → Reduction n R → Prop} (start : ∀ i, n ≤ i + 1 → P i ⟨a, []⟩)
    (step : ∀ i, i + 1 < n → P (i + 1) (atTurn a (i + 1)) →
      P i ((atTurn a (i + 1)).clearRow (i + 1))) (i : Nat) : P i (atTurn a i) := by
  induction h : n - 1 - i generalizing i with
  | zero =>
      rw [atTurn_of_le a (by omega)]
      exact start i (by omega)
  | succ k ih =>
      rw [atTurn_eq_clearRow a (by omega)]
      exact step i (by omega) (ih (i + 1) (by omega))

/-- The reflection of row `i`, if it has one at its turn. -/
def reflectionOf? (i : Nat) : Option (Reflection R) :=
  (ofRow? i ((atTurn a i).matrix i)).map Prod.fst

theorem reflections_atTurn (i : Nat) :
    (atTurn a i).reflections = (List.range' (i + 1) (n - 1 - i)).filterMap (reflectionOf? a) := by
  refine atTurn_induction a (P := fun i r => r.reflections
    = (List.range' (i + 1) (n - 1 - i)).filterMap (reflectionOf? a)) ?_ ?_ i
  · intro i hi
    rw [show n - 1 - i = 0 by omega]
    rfl
  · intro i hi ih
    rw [show n - 1 - i = n - 1 - (i + 1) + 1 by omega, List.range'_succ]
    cases h : ofRow? (i + 1) ((atTurn a (i + 1)).matrix (i + 1)) with
    | none =>
        rw [clearRow_of_none h, ih]
        exact (List.filterMap_cons_none (by rw [reflectionOf?, h]; rfl)).symm
    | some s =>
        rw [clearRow_of_some h, ih]
        exact (List.filterMap_cons_some (by rw [reflectionOf?, h]; rfl)).symm

theorem mem_reflections_ofMatrix {v : Reflection R} :
    v ∈ (ofMatrix a).reflections ↔
      ∃ i, 2 ≤ i ∧ i < n ∧ ∃ x, ofRow? i ((atTurn a i).matrix i) = some (v, x) := by
  rw [ofMatrix_eq_atTurn, reflections_atTurn, List.mem_filterMap]
  constructor
  · rintro ⟨i, hi, hv⟩
    obtain ⟨⟨w, x⟩, h, rfl⟩ := Option.map_eq_some_iff.1 hv
    have := List.mem_range'_1.1 hi
    exact ⟨i, by omega, by omega, x, h⟩
  · rintro ⟨i, hi, hin, x, h⟩
    refine ⟨i, List.mem_range'_1.2 ⟨by omega, by omega⟩, ?_⟩
    rw [reflectionOf?, h]
    rfl

theorem length_reflections_ofMatrix : (ofMatrix a).reflections.length ≤ n := by
  rw [ofMatrix_eq_atTurn, reflections_atTurn]
  refine (List.length_filterMap_le _ _).trans ?_
  rw [List.length_range']
  omega

end Turns

/-! ## Rows that are not divided by an infinity -/

section Doubles

variable {n : Nat} {a : DenseMatrix n n (Complex Float)} {p : ℝ}

theorem isScalable {order : Nat} {row : Nat → Complex Float} {v : Reflection Float}
    {x : Complex Float} (hpos : 0 < order) (hlimit : order ≤ orderLimit)
    (hinf : (scaleOf order row).isInf = false) (h : ofRow? order row = some (v, x)) :
    IsScalable order row := by
  have hguard : ¬(scaleOf order row == 0 || !Arith.isFinite (1 / scaleOf order row)) = true :=
    fun hguard => by
      rw [ofRow?_eq_none_iff.2 hguard] at h
      cases h
  rw [Bool.or_eq_true, not_or, Bool.not_eq_true, Bool.not_eq_true, Bool.not_eq_false'] at hguard
  exact ⟨hpos, hlimit, isFinite_of_one_div hinf hguard.2, hguard.1, hguard.2⟩

/-- A reflection of real entries leaves them real, in the block that is read from then on. -/
theorem clearRow_isReal {r : Reduction n Float} {i : Nat} (hi : 0 < i) (hin : i < n)
    (h : ∀ j < n, ∀ k < n, j ≤ i → k ≤ i → (r.matrix j k).IsReal) :
    ∀ j < n, ∀ k < n, j < i → k < i → ((r.clearRow i).matrix j k).IsReal := by
  have hrow (x : Complex Float) : ∀ j < n, ∀ k < n, j < i → k < i →
      (withRow r.matrix i x j k).IsReal := fun j hj k hk hji hki => by
    rw [withRow_apply _ _ _ hj hk, if_neg (by omega)]
    exact h j hj k hk hji.le hki.le
  intro j hj k hk hji hki
  cases hv : ofRow? i (r.matrix i) with
  | none =>
      rw [clearRow_of_none hv]
      exact hrow 0 j hj k hk hji hki
  | some s =>
      obtain ⟨v, x⟩ := s
      have hcoordinate : ∀ l < i, (v.coordinate l).IsReal := fun l hl =>
        coordinate_isReal hi (fun l hl => h i hin l (hl.trans hin) le_rfl hl.le) hv hl
      obtain rfl := order_of_ofRow? hv
      -- the rows of the block first, and then the columns of the result
      have hright : ∀ j < n, ∀ k < n, j < v.order → k < v.order →
          (v.applyRight (withRow r.matrix v.order x) j k).IsReal := fun j hj k hk hji hki => by
        rw [applyRight_apply _ _ hj hk, if_pos ⟨hji, hki⟩]
        refine (hrow x j hj k hk hji hki).sub ((sum_isReal hi fun l hl => ?_).mul
          (hcoordinate k hki))
        exact (hcoordinate l hl).conj.mul (hrow x j hj l (hl.trans hin) hji hl)
      rw [clearRow_of_some hv, applyLeft_apply _ _ _ hj hk, if_pos ⟨hji, hk⟩]
      refine (hright j hj k hk hji hki).sub ((sum_isReal hi fun l hl => ?_).mul
        (hcoordinate j hji).conj)
      exact (hcoordinate l hl).mul (hright l (hl.trans hin) k hk hl hki)

theorem atTurn_isReal (ha : ∀ j < n, ∀ k < n, (a j k).IsReal) (i : Nat) :
    ∀ j < n, ∀ k < n, j ≤ i → k ≤ i → ((atTurn a i).matrix j k).IsReal := by
  refine atTurn_induction a (P := fun i r => ∀ j < n, ∀ k < n, j ≤ i → k ≤ i →
    (r.matrix j k).IsReal) ?_ ?_ i
  · exact fun _ _ j hj k hk _ _ => ha j hj k hk
  · intro i hi h j hj k hk hji hki
    exact clearRow_isReal (Nat.succ_pos i) hi h j hj k hk (Nat.lt_succ_of_le hji)
      (Nat.lt_succ_of_le hki)

/-- Vectors of rows that were not divided by an infinity. -/
def HasShortVectors (a : DenseMatrix n n (Complex Float)) (p : ℝ) : Prop :=
  ∀ i, 2 ≤ i → i < n → (rowScale a i).isInf = false →
    ∀ v x, ofRow? i ((atTurn a i).matrix i) = some (v, x) → v.IsShort p

theorem hasShortVectors_two (hn : n ≤ orderLimit) : HasShortVectors a 2 := by
  intro i hi hin hinf v x h
  exact isShort_two (isScalable (by omega) (by omega) hinf h) h

theorem hasShortVectors_one (hn : n ≤ orderLimit) (ha : ∀ j < n, ∀ k < n, (a j k).IsReal) :
    HasShortVectors a 1 := by
  intro i hi hin hinf v x h
  have hscalable := isScalable (by omega) (by omega) hinf h
  refine isShort_one hscalable h ?_
  have hreal := atTurn_isReal ha i i hin (i - 1) (by omega) le_rfl (by omega)
  exact hreal.toReal_im (hscalable.entries.2.1 (i - 1) (by omega)).isFinite

/-- With no infinite sum, the basis is finite. -/
theorem basis_isFinite (hn : n ≤ orderLimit) (hp : 1 ≤ p) (hp2 : p ≤ 2)
    (hshort : HasShortVectors a p) (hsize : p ^ n ≤ 2 ^ 1000)
    (hscale : ∀ i, 2 ≤ i → i < n → (rowScale a i).isInf = false) :
    (ofMatrix a).basis.IsFinite := by
  have hvs : ∀ v ∈ (ofMatrix a).reflections, v.IsShort p ∧ v.order ≤ n := by
    intro v hv
    obtain ⟨i, hi, hin, x, h⟩ := (mem_reflections_ofMatrix a).1 hv
    exact ⟨hshort i hi hin (hscale i hi hin) v x h, order_of_ofRow? h ▸ hin.le⟩
  refine (foldl_applyLeft_hasShortColumns hp hp2 hvs identity_hasShortColumns le_rfl ?_).isFinite
  have hlength : growth p ^ (ofMatrix a).reflections.length ≤ growth p ^ n :=
    pow_le_pow_right₀ (one_le_growth hp) (length_reflections_ofMatrix a)
  have hgrowth := growth_pow_le (by linarith : 0 ≤ p) hn
  have hcap := two_pow_lt_safeBound (k := 1020) (by decide)
  have hpow : (2 : ℝ) ^ 1020 = 2 ^ 20 * 2 ^ 1000 := by rw [← pow_add]
  have hone : (1 : ℝ) ≤ 2 ^ 1000 := one_le_pow₀ one_le_two
  rw [hpow] at hcap
  clear hpow
  generalize (2 : ℝ) ^ 1000 = c at *
  linarith

theorem exists_ofRow?_of_isInf {order : Nat} {row : Nat → Complex Float}
    (hinf : (scaleOf order row).isInf = true) : ∃ v x, ofRow? order row = some (v, x) := by
  have hunscale : Arith.isFinite (1 / scaleOf order row) = true := (one_div_of_isInf hinf).1
  cases h : ofRow? order row with
  | some s => exact ⟨s.1, s.2, rfl⟩
  | none =>
      have hguard := ofRow?_eq_none_iff.1 h
      rw [hunscale, Bool.not_true, Bool.or_false] at hguard
      exact absurd (isFinite_of_beq_zero hguard) (not_isFinite_of_isInf hinf)

theorem foldl_applyLeft_isNaN (hn : 0 < n) {vs : List (Reflection Float)}
    {q : DenseMatrix n n (Complex Float)} (hq : (q 0 0).re.isNaN = true) :
    (vs.foldl (fun q v => v.applyLeft v.order q) q 0 0).re.isNaN = true := by
  induction vs generalizing q with
  | nil => exact hq
  | cons v vs ih => exact ih (applyLeft_isNaN_of_isNaN hn hq v)

/-- With an infinite sum, the first entry of the basis is undefined. -/
theorem basis_isNaN {i : Nat} (hi : 2 ≤ i) (hin : i < n) (hinf : (rowScale a i).isInf = true) :
    ((ofMatrix a).basis 0 0).re.isNaN = true := by
  obtain ⟨v, x, h⟩ := exists_ofRow?_of_isInf hinf
  have hv : v ∈ (ofMatrix a).reflections := (mem_reflections_ofMatrix a).2 ⟨i, hi, hin, x, h⟩
  obtain rfl := order_of_ofRow? h
  have hundefined : ∀ k < v.order, (v.coordinate k).IsUndefined := fun k hk =>
    coordinate_isUndefined (by omega) hinf h hk
  obtain ⟨earlier, later, hsplit⟩ := List.append_of_mem hv
  rw [basis, hsplit, List.foldl_append, List.foldl_cons]
  exact foldl_applyLeft_isNaN (by omega) (applyLeft_isNaN (by omega) (by omega) hundefined _)

/-- The basis is finite if and only if no row is divided by an infinity. -/
theorem basis_isFinite_iff (hn : n ≤ orderLimit) (hp : 1 ≤ p) (hp2 : p ≤ 2)
    (hshort : HasShortVectors a p) (hsize : p ^ n ≤ 2 ^ 1000) :
    (ofMatrix a).basis.IsFinite ↔ ∀ i, 2 ≤ i → i < n → (rowScale a i).isInf = false := by
  constructor
  · intro h i hi hin
    rw [← Bool.not_eq_true]
    intro hinf
    have hfinite := Complex.isFinite_iff.1 (h 0 0 (by omega) (by omega))
    exact not_isFinite_of_isNaN (basis_isNaN hi hin hinf) hfinite.1
  · exact basis_isFinite hn hp hp2 hshort hsize

/-! ## Matrices that are not too large -/

theorem scaleOf_isFinite {order : Nat} {row : Nat → Complex Float} {c : ℝ}
    (hlimit : order ≤ orderLimit) (hc : 1 ≤ c)
    (hrow : ∀ k < order, (row k).isFinite = true ∧ ‖(row k).value‖ ≤ c)
    (hsize : 2 ^ 3 * (order * c) + 2 ^ 3 * c < safeBound) :
    (scaleOf order row).isFinite = true := by
  have hη := mul_underflow_le hlimit
  have hc0 : 0 ≤ order * c := by positivity
  have htaxicab : ∀ k < order, (row k).taxicab.isFinite = true ∧
      |toReal (row k).taxicab| ≤ 3 * c := by
    intro k hk
    obtain ⟨hfinite, hle⟩ := hrow k hk
    have hre := (Complex.abs_re_le_norm (row k).value).trans hle
    have him := (Complex.abs_im_le_norm (row k).value).trans hle
    rw [Complex.value_re] at hre
    rw [Complex.value_im] at him
    have hround := Complex.taxicab_roundsTo hfinite (by linarith)
    obtain ⟨-, hnonneg, -, hlast⟩ := Complex.taxicab_spec hround.isFinite
    rw [abs_of_nonneg ((abs_nonneg _).trans hnonneg)]
    exact ⟨hround.isFinite, hlast.trans (by linarith)⟩
  have hsum : ∑ k ∈ Finset.range order, |toReal (row k).taxicab| ≤ order * (3 * c) := by
    rw [← nsmul_eq_mul, ← Finset.card_range order, ← Finset.sum_const, Finset.card_range]
    exact Finset.sum_le_sum fun k hk => (htaxicab k (Finset.mem_range.1 hk)).2
  have hu := mul_roundoff_le hlimit
  exact (sumOver_near (by linarith) (fun k hk => (htaxicab k hk).1) hsum (by linarith)).isFinite

theorem rowScale_isFinite_of_block {c : ℝ} {i : Nat} (hlimit : i ≤ orderLimit) (hc : 1 ≤ c)
    (h : (atTurn a i).matrix.HasShortBlock (i + 1) c)
    (hsize : 2 ^ 3 * (i * c) + 2 ^ 3 * c < safeBound) : (rowScale a i).isFinite = true := by
  refine scaleOf_isFinite hlimit hc (fun k hk => ⟨h.isFinite i (by omega) k (by omega), ?_⟩) hsize
  have hentry := norm_le_normUpTo (m := i + 1) (f := fun k => ((atTurn a i).matrix i k).value)
    (k := k) (by omega)
  exact hentry.trans ((DenseMatrix.row_le_blockLength (Nat.lt_succ_self i)).trans h.length_le)

/-- Room for the rows to come, in terms of what all reflections can add up to. -/
theorem room_of_le {c c' : ℝ} {i : Nat} (hc : 1 ≤ c') (hle : c' ≤ c) (hin : i < n)
    (hsize : 2 ^ 5 * (n * c) < safeBound) : 2 ^ 3 * (i * c') + 2 ^ 3 * c' < safeBound ∧
      2 ^ 4 * c' + 2 < safeBound := by
  have hcast : (i : ℝ) + 1 ≤ n := by exact_mod_cast hin
  have hi : (0 : ℝ) ≤ i := i.cast_nonneg
  have hproduct : (i + 1) * c' ≤ n * c := mul_le_mul hcast hle (by linarith) (by linarith)
  have : 0 ≤ i * c' := mul_nonneg hi (by linarith)
  exact ⟨by linarith, by linarith⟩

/-- The block that is read from is not much longer than the matrix, row after row. -/
theorem atTurn_hasShortBlock {c : ℝ} (hn : n ≤ orderLimit) (hp : 1 ≤ p) (hp2 : p ≤ 2)
    (hshort : HasShortVectors a p) (ha : a.HasShortBlock n c) (hc : 1 ≤ c)
    (hsize : 2 ^ 5 * (n * (growth p ^ (2 * n) * c)) < safeBound) (i : Nat) :
    1 ≤ i → i < n →
      (atTurn a i).matrix.HasShortBlock (i + 1) (growth p ^ (2 * (n - 1 - i)) * c) := by
  have hgrowth := one_le_growth hp
  refine atTurn_induction a (P := fun i r => 1 ≤ i → i < n →
    r.matrix.HasShortBlock (i + 1) (growth p ^ (2 * (n - 1 - i)) * c)) ?_ ?_ i
  · intro i hni _ hin
    obtain rfl : i = n - 1 := by omega
    rw [Nat.sub_self, mul_zero, pow_zero, one_mul, Nat.sub_add_cancel (by omega)]
    exact ha
  · intro i hin ih hi _
    have hblock := ih (by omega) hin
    set c' := growth p ^ (2 * (n - 1 - (i + 1))) * c with hc'
    have hc1 : 1 ≤ c' := one_le_mul_of_one_le_of_one_le (one_le_pow₀ hgrowth) hc
    have hnext : growth p ^ 2 * c' = growth p ^ (2 * (n - 1 - i)) * c := by
      rw [hc', ← mul_assoc, ← pow_add]
      congr 2
      omega
    have htotal : growth p ^ 2 * c' ≤ growth p ^ (2 * n) * c := by
      rw [hnext]
      exact mul_le_mul_of_nonneg_right (pow_le_pow_right₀ hgrowth (by omega)) (by linarith)
    have hfirst : c' ≤ growth p * c' := le_mul_of_one_le_left (by linarith) hgrowth
    have hsecond : growth p * c' ≤ growth p ^ 2 * c' :=
      mul_le_mul_of_nonneg_right (le_self_pow₀ hgrowth two_ne_zero) (by linarith)
    have hscale := rowScale_isFinite_of_block (by omega) hc1 hblock
      (room_of_le hc1 (by linarith) hin hsize).1
    rw [← hnext]
    refine clearRow_hasShortBlock hin hblock hp hp2 hc1 (fun v x h => ?_)
      (room_of_le (hc1.trans hfirst) (hsecond.trans htotal) hin hsize).2
    exact hshort (i + 1) (by omega) hin (isInf_of_isFinite hscale) v x h

/-- No row is divided by an infinity. -/
theorem rowScale_isFinite {c : ℝ} (hn : n ≤ orderLimit) (hp : 1 ≤ p) (hp2 : p ≤ 2)
    (hshort : HasShortVectors a p) (ha : a.HasShortBlock n c) (hc : 1 ≤ c)
    (hsize : 2 ^ 5 * (n * (growth p ^ (2 * n) * c)) < safeBound) {i : Nat} (hi : 1 ≤ i)
    (hin : i < n) : (rowScale a i).isFinite = true := by
  have hgrowth := one_le_growth hp
  have hc1 : 1 ≤ growth p ^ (2 * (n - 1 - i)) * c :=
    one_le_mul_of_one_le_of_one_le (one_le_pow₀ hgrowth) hc
  have hle : growth p ^ (2 * (n - 1 - i)) * c ≤ growth p ^ (2 * n) * c :=
    mul_le_mul_of_nonneg_right (pow_le_pow_right₀ hgrowth (by omega)) (by linarith)
  exact rowScale_isFinite_of_block (by omega) hc1
    (atTurn_hasShortBlock hn hp hp2 hshort ha hc hsize i hi hin) (room_of_le hc1 hle hin hsize).1

/-- The block that is the whole matrix. -/
theorem hasShortBlock_of_isWithin {b : ℝ} (hb : 0 ≤ b)
    (ha : ∀ j < n, ∀ k < n, (a j k).IsWithin b) : a.HasShortBlock n (2 * n * b) := by
  refine ⟨fun j hj k hk => (ha j hj k hk).isFinite, ?_⟩
  have hrow : ∀ j < n, ‖(normUpTo n fun k => (a j k).value : ℂ)‖ ≤ √n * (2 * b) := fun j hj => by
    rw [DenseMatrix.norm_normUpTo]
    exact normUpTo_le_sqrt_mul (by linarith) fun k hk => Complex.norm_value_le (ha j hj k hk)
  refine (normUpTo_le_sqrt_mul (by positivity) hrow).trans (le_of_eq ?_)
  rw [← mul_assoc, Real.mul_self_sqrt n.cast_nonneg]
  ring

/-- A matrix with entries that are not too large has a finite basis. -/
theorem rowScale_isFinite_of_isWithin {b : ℝ} (hn : n ≤ orderLimit) (hp : 1 ≤ p) (hp2 : p ≤ 2)
    (hshort : HasShortVectors a p) (hb : 1 ≤ b) (ha : ∀ j < n, ∀ k < n, (a j k).IsWithin b)
    (hsize : n ^ 2 * b * (p ^ n) ^ 2 ≤ 2 ^ 990) {i : Nat} (hi : 1 ≤ i) (hin : i < n) :
    (rowScale a i).isFinite = true := by
  have hn1 : (1 : ℝ) ≤ n := by exact_mod_cast (by omega : 1 ≤ n)
  refine rowScale_isFinite hn hp hp2 hshort (hasShortBlock_of_isWithin (by linarith) ha)
    (by nlinarith) ?_ hi hin
  have hgrowth := pow_le_pow_left₀ (pow_nonneg (by linarith [one_le_growth hp]) n)
    (growth_pow_le (by linarith : 0 ≤ p) hn) 2
  rw [← pow_mul, mul_comm n 2] at hgrowth
  have hcap := two_pow_lt_safeBound (k := 1020) (by decide)
  have hpow : (2 : ℝ) ^ 1020 = 2 ^ 30 * 2 ^ 990 := by rw [← pow_add]
  rw [hpow] at hcap
  calc (2 : ℝ) ^ 5 * (n * (growth p ^ (2 * n) * (2 * n * b)))
      = 2 ^ 6 * n ^ 2 * b * growth p ^ (2 * n) := by ring
    _ ≤ 2 ^ 6 * n ^ 2 * b * (p ^ n * 2 ^ 12) ^ 2 :=
      mul_le_mul_of_nonneg_left hgrowth (by positivity)
    _ = 2 ^ 30 * (n ^ 2 * b * (p ^ n) ^ 2) := by ring
    _ ≤ 2 ^ 30 * 2 ^ 990 := mul_le_mul_of_nonneg_left hsize (by positivity)
    _ < safeBound := hcap

end Doubles

end Reduction

end DenseNumeric
