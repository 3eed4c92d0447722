import Mathlib
import DenseNumeric.Proofs.FloatReflections

/-!
# Reflected matrices

What reflections in double precision do to a whole matrix, if each of them has
a vector that is short enough. Two measures grow by a factor at a time. For the
basis it is the length of the longest column; every reflection acts on columns
there. For the matrix it is the length of a leading block, the part that the
rows to come are read from: first its rows are reflected, then its columns.
-/

namespace DenseNumeric

open Binary

/-- How much a reflection in double precision can lengthen, if its vector has a
squared length of `1 + p`. -/
noncomputable def growth (p : ℝ) : ℝ := p * (1 + ((2 : ℕ) : ℝ) ^ (-17 : ℤ))

theorem growth_eq (p : ℝ) : growth p = p * (1 + 1 / 2 ^ 17) := by
  rw [growth, Nat.cast_ofNat]
  norm_num

theorem one_le_growth {p : ℝ} (hp : 1 ≤ p) : 1 ≤ growth p := by
  rw [growth_eq]
  linarith

theorem growth_pow_le {p : ℝ} (hp : 0 ≤ p) {k : ℕ} (hk : k ≤ orderLimit) :
    growth p ^ k ≤ p ^ k * 2 ^ 12 := by
  have hcast : (k : ℝ) ≤ 2 ^ 20 := by exact_mod_cast hk
  have hunit : (1 + 1 / 2 ^ 17 : ℝ) ^ k ≤ 2 ^ 12 := by
    calc (1 + 1 / 2 ^ 17 : ℝ) ^ k ≤ Real.exp (1 / 2 ^ 17) ^ k :=
          pow_le_pow_left₀ (by norm_num) (by linarith [Real.add_one_le_exp (1 / 2 ^ 17)]) k
      _ = Real.exp (k * (1 / 2 ^ 17)) := (Real.exp_nat_mul _ k).symm
      _ ≤ Real.exp (8 * 1) := Real.exp_le_exp.2 (by linarith)
      _ = Real.exp 1 ^ 8 := by
          rw [← Real.exp_nat_mul]
          norm_num
      _ ≤ (2.7182818286 : ℝ) ^ 8 := pow_le_pow_left₀ (Real.exp_pos 1).le Real.exp_one_lt_d9.le 8
      _ ≤ 2 ^ 12 := by norm_num
  rw [growth_eq, mul_pow]
  exact mul_le_mul_of_nonneg_left hunit (pow_nonneg hp k)

namespace Reflection

variable {v : Reflection Float} {p a : ℝ} {w : ℕ → Complex Float}

namespace IsShort

/-- What is left of one reflection, with the errors of rounding. -/
theorem reflect {b c : ℕ → Complex Float} (h : v.IsShort p) (hp : 1 ≤ p) (hp2 : p ≤ 2)
    (hb : ∀ k < v.order, (b k).isFinite = true ∧ ‖(b k).value‖ = ‖(v.coordinate k).value‖)
    (hc : ∀ k < v.order, (c k).isFinite = true ∧ (c k).value = star (b k).value)
    (hw : ∀ k < v.order, (w k).isFinite = true)
    (ha : normUpTo v.order (fun k => (w k).value) ≤ a) (hsize : 2 ^ 4 * a + 2 < safeBound) :
    (∀ k < v.order, (w k - v.sum (fun l => b l * w l) * c k).isFinite = true) ∧
      normUpTo v.order (fun k => (w k - v.sum (fun l => b l * w l) * c k).value)
        ≤ p * (1 + 1 / 2 ^ 18) * a + 1 / 2 ^ 150 := by
  have hlength : normUpTo v.order (fun k => (b k).value) ^ 2 ≤ (1 + p) * (1 + 1 / 2 ^ 20) := by
    rw [normUpTo_congr fun k hk => (hb k hk).2]
    exact h.length_le
  have hshort : normUpTo v.order (fun k => (b k).value) ≤ 2 := by
    refine le_of_sq_le_sq ?_ zero_le_two
    linarith
  obtain ⟨hfinite, hle⟩ := reflect_near h.pos h.order_le (fun k hk => (hb k hk).1) hc hshort hw ha
    hsize
  refine ⟨hfinite, hle.trans (add_le_add_left ?_ _)⟩
  refine mul_le_mul_of_nonneg_right ?_ ((normUpTo_nonneg _ _).trans ha)
  have : max 1 (normUpTo v.order (fun k => (b k).value) ^ 2 - 1) ≤ p * (1 + 1 / 2 ^ 19) := by
    refine max_le (by linarith) ?_
    linarith
  linarith

/-- A column, as `applyLeft` reflects it. -/
theorem column (h : v.IsShort p) (hp : 1 ≤ p) (hp2 : p ≤ 2)
    (hw : ∀ k < v.order, (w k).isFinite = true)
    (ha : normUpTo v.order (fun k => (w k).value) ≤ a) (hsize : 2 ^ 4 * a + 2 < safeBound) :
    (∀ k < v.order,
        (w k - v.sum (fun l => v.coordinate l * w l) * (v.coordinate k).conj).isFinite = true) ∧
      normUpTo v.order
          (fun k => (w k - v.sum (fun l => v.coordinate l * w l) * (v.coordinate k).conj).value)
        ≤ p * (1 + 1 / 2 ^ 18) * a + 1 / 2 ^ 150 :=
  h.reflect hp hp2 (fun k hk => ⟨h.isFinite k hk, rfl⟩)
    (fun k hk => ⟨Complex.conj_isFinite (h.isFinite k hk), Complex.value_conj (h.isFinite k hk)⟩)
    hw ha hsize

/-- A row, as `applyRight` reflects it. -/
theorem row (h : v.IsShort p) (hp : 1 ≤ p) (hp2 : p ≤ 2)
    (hw : ∀ k < v.order, (w k).isFinite = true)
    (ha : normUpTo v.order (fun k => (w k).value) ≤ a) (hsize : 2 ^ 4 * a + 2 < safeBound) :
    (∀ k < v.order,
        (w k - v.sum (fun l => (v.coordinate l).conj * w l) * v.coordinate k).isFinite = true) ∧
      normUpTo v.order
          (fun k => (w k - v.sum (fun l => (v.coordinate l).conj * w l) * v.coordinate k).value)
        ≤ p * (1 + 1 / 2 ^ 18) * a + 1 / 2 ^ 150 := by
  refine h.reflect hp hp2 (fun k hk => ?_) (fun k hk => ?_) hw ha hsize
  · rw [Complex.value_conj (h.isFinite k hk), norm_star]
    exact ⟨Complex.conj_isFinite (h.isFinite k hk), rfl⟩
  · rw [Complex.value_conj (h.isFinite k hk), star_star]
    exact ⟨h.isFinite k hk, rfl⟩

end IsShort

end Reflection

/-! ## The basis -/

variable {n : Nat}

/-- Every entry is finite, and no column is longer than `a`. -/
structure DenseMatrix.HasShortColumns (q : DenseMatrix n n (Complex Float)) (a : ℝ) : Prop where
  isFinite : q.IsFinite
  length_le : ∀ j < n, normUpTo n (fun k => (q k j).value) ≤ a

namespace Reduction

open Reflection

variable {q : DenseMatrix n n (Complex Float)} {p a : ℝ}

theorem identity_hasShortColumns :
    (DenseMatrix.identity : DenseMatrix n n (Complex Float)).HasShortColumns 1 := by
  have hone : (1 : Complex Float).value = 1 := by
    rw [← Complex.ofReal_one, ← toReal_one]
    exact Complex.value_real 1
  have hzero : (0 : Complex Float).value = 0 := by
    rw [← Complex.ofReal_zero, ← toReal_zero]
    exact Complex.value_real 0
  constructor
  · intro i j hi hj
    rw [DenseMatrix.get_identity hi hj]
    split_ifs <;> rfl
  · intro j hj
    refine Real.sqrt_le_one.2 ?_
    rw [Finset.sum_eq_single j]
    · beta_reduce
      rw [DenseMatrix.get_identity hj hj, if_pos rfl, hone]
      norm_num
    · intro k hk hkj
      beta_reduce
      rw [DenseMatrix.get_identity (Finset.mem_range.1 hk) hj, if_neg hkj, hzero]
      norm_num
    · intro hj'
      exact absurd (Finset.mem_range.2 hj) hj'

theorem applyLeft_hasShortColumns {v : Reflection Float} (hv : v.IsShort p) (hp : 1 ≤ p)
    (hp2 : p ≤ 2) (hvn : v.order ≤ n) (hq : q.HasShortColumns a) (ha : 1 ≤ a)
    (hsize : 2 ^ 4 * a + 2 < safeBound) :
    (v.applyLeft v.order q).HasShortColumns (growth p * a) := by
  have hcolumn : ∀ j < n, normUpTo v.order (fun k => (q k j).value) ≤ a := fun j hj =>
    (normUpTo_le_normUpTo hvn).trans (hq.length_le j hj)
  have hstep : ∀ j < n, _ := fun j hj => hv.column hp hp2
    (fun k hk => hq.isFinite k j (hk.trans_le hvn) hj) le_rfl
    (by linarith [hcolumn j hj])
  have hgrowth : p * (1 + 1 / 2 ^ 18) * a + 1 / 2 ^ 150 ≤ growth p * a := by
    have : 1 ≤ p * a := one_le_mul_of_one_le_of_one_le hp ha
    rw [growth_eq]
    linarith
  constructor
  · intro k j hk hj
    rw [applyLeft_apply v _ q hk hj]
    split_ifs with h
    · exact (hstep j hj).1 k h.1
    · exact hq.isFinite k j hk hj
  · intro j hj
    by_cases hjv : j < v.order
    · have hfirst : normUpTo v.order (fun k => (v.applyLeft v.order q k j).value)
          ≤ p * (1 + 1 / 2 ^ 18) * normUpTo v.order (fun k => (q k j).value) + 1 / 2 ^ 150 := by
        refine le_trans (normUpTo_congr fun k hk => ?_).le (hstep j hj).2
        rw [applyLeft_apply v _ q (hk.trans_le hvn) hj, if_pos ⟨hk, hjv⟩]
      have hall := normUpTo_le_of_tail hvn (by linarith) (by norm_num) (fun k hk hkn => by
        rw [applyLeft_apply v _ q hkn hj, if_neg (by omega)]) hfirst
      have := mul_le_mul_of_nonneg_left (hq.length_le j hj)
        (by linarith : 0 ≤ p * (1 + 1 / 2 ^ 18))
      linarith
    · refine (normUpTo_congr fun k hk => ?_).le.trans ((hq.length_le j hj).trans
        (le_mul_of_one_le_left (by linarith) (one_le_growth hp)))
      rw [applyLeft_apply v _ q hk hj, if_neg fun h => hjv h.2]

/-- Finite bases stay finite, as no reflection lengthens a column much. -/
theorem foldl_applyLeft_hasShortColumns {vs : List (Reflection Float)} (hp : 1 ≤ p) (hp2 : p ≤ 2)
    (hvs : ∀ v ∈ vs, v.IsShort p ∧ v.order ≤ n) (hq : q.HasShortColumns a) (ha : 1 ≤ a)
    (hsize : 2 ^ 4 * (growth p ^ vs.length * a) + 2 < safeBound) :
    (vs.foldl (fun q v => v.applyLeft v.order q) q).HasShortColumns (growth p ^ vs.length * a) := by
  have hgrowth := one_le_growth hp
  induction vs generalizing q a with
  | nil => simpa using hq
  | cons v vs ih =>
      obtain ⟨⟨hv, hvn⟩, hvs⟩ := List.forall_mem_cons.1 hvs
      have hpow : growth p ^ (v :: vs).length * a = growth p ^ vs.length * (growth p * a) := by
        rw [List.length_cons, pow_succ, mul_assoc]
      have hgrown : a ≤ growth p * a := le_mul_of_one_le_left (by linarith) hgrowth
      rw [hpow] at hsize ⊢
      have hnow : a ≤ growth p ^ vs.length * (growth p * a) :=
        hgrown.trans (le_mul_of_one_le_left (by linarith) (one_le_pow₀ hgrowth))
      exact ih hvs (applyLeft_hasShortColumns hv hp hp2 hvn hq ha (by linarith))
        (ha.trans hgrown) hsize

end Reduction

/-! ## The leading block -/

/-- The length of the leading block of order `m`. -/
noncomputable def DenseMatrix.blockLength (m : ℕ) (a : DenseMatrix n n (Complex Float)) : ℝ :=
  normUpTo m fun j => (normUpTo m fun k => (a j k).value : ℂ)

/-- The leading block of order `m` is finite, and not longer than `c`. -/
structure DenseMatrix.HasShortBlock (m : ℕ) (a : DenseMatrix n n (Complex Float)) (c : ℝ) :
    Prop where
  isFinite : ∀ j < m, ∀ k < m, (a j k).isFinite = true
  length_le : a.blockLength m ≤ c

namespace DenseMatrix

variable {m : ℕ} {a b : DenseMatrix n n (Complex Float)} {c p : ℝ}

theorem norm_normUpTo (m : ℕ) (f : ℕ → ℂ) : ‖(normUpTo m f : ℂ)‖ = normUpTo m f := by
  rw [Complex.norm_real, Real.norm_of_nonneg (normUpTo_nonneg m f)]

/-- The length by columns. -/
theorem blockLength_eq (m : ℕ) (a : DenseMatrix n n (Complex Float)) :
    a.blockLength m = normUpTo m fun k => (normUpTo m fun j => (a j k).value : ℂ) := by
  rw [blockLength, ← sq_eq_sq₀ (normUpTo_nonneg _ _) (normUpTo_nonneg _ _), sq_normUpTo,
    sq_normUpTo]
  simp only [norm_normUpTo, sq_normUpTo]
  exact Finset.sum_comm

theorem row_le_blockLength {j : ℕ} (hj : j < m) :
    normUpTo m (fun k => (a j k).value) ≤ a.blockLength m := by
  rw [← norm_normUpTo]
  exact norm_le_normUpTo (f := fun j => (normUpTo m fun k => (a j k).value : ℂ)) hj

theorem column_le_blockLength {k : ℕ} (hk : k < m) :
    normUpTo m (fun j => (a j k).value) ≤ a.blockLength m := by
  rw [← norm_normUpTo, blockLength_eq]
  exact norm_le_normUpTo (f := fun k => (normUpTo m fun j => (a j k).value : ℂ)) hk

theorem HasShortBlock.of_le {i : ℕ} (h : a.HasShortBlock m c) (him : i ≤ m) :
    a.HasShortBlock i c := by
  refine ⟨fun j hj k hk => h.isFinite j (by omega) k (by omega), le_trans ?_ h.length_le⟩
  refine (normUpTo_le_normUpTo him).trans (normUpTo_mono fun j _ => ?_)
  rw [norm_normUpTo, norm_normUpTo]
  exact normUpTo_le_normUpTo him

theorem HasShortBlock.congr (h : a.HasShortBlock m c) (hab : ∀ j < m, ∀ k < m, b j k = a j k) :
    b.HasShortBlock m c := by
  refine ⟨fun j hj k hk => by rw [hab j hj k hk]; exact h.isFinite j hj k hk, ?_⟩
  refine (normUpTo_congr fun j hj => ?_).le.trans h.length_le
  rw [norm_normUpTo, norm_normUpTo]
  exact normUpTo_congr fun k hk => by rw [hab j hj k hk]

/-- Rows or columns that grow a little each. -/
theorem normUpTo_lengths_le {f g : ℕ → ℝ} {x t : ℝ} (hx : 0 ≤ x) (ht : 0 ≤ t) (hf : ∀ j, 0 ≤ f j)
    (hg : ∀ j, 0 ≤ g j) (h : ∀ j < m, f j ≤ x * g j + t) :
    normUpTo m (fun j => (f j : ℂ)) ≤ x * normUpTo m (fun j => (g j : ℂ)) + m * t := by
  have hnorm (f : ℕ → ℝ) (hf : ∀ j, 0 ≤ f j) (j : ℕ) : ‖(f j : ℂ)‖ = f j := by
    rw [Complex.norm_real, Real.norm_of_nonneg (hf j)]
  have := normUpTo_le_of_le (m := m) (f := fun j => (f j : ℂ)) (g := fun j => (g j : ℂ))
    (h := fun j => (g j : ℂ)) hx le_rfl ht fun j hj => by
      rw [hnorm f hf, hnorm g hg]
      linarith [h j hj]
  linarith

variable {v : Reflection Float}

open Reflection

/-- All rows, or all columns, lengthened by a factor and an error that is small. -/
theorem lengths_le_growth {f g : ℕ → ℝ} (hm : m ≤ orderLimit) (hp : 1 ≤ p) (hc : 1 ≤ c)
    (hf : ∀ j, 0 ≤ f j) (hg : ∀ j, 0 ≤ g j)
    (h : ∀ j < m, f j ≤ p * (1 + 1 / 2 ^ 18) * g j + 1 / 2 ^ 150)
    (hgc : normUpTo m (fun j => (g j : ℂ)) ≤ c) :
    normUpTo m (fun j => (f j : ℂ)) ≤ growth p * c := by
  have hcast : (m : ℝ) ≤ 2 ^ 20 := by exact_mod_cast hm
  have hle := normUpTo_lengths_le (by linarith) (by norm_num) hf hg h
  have hscaled := mul_le_mul_of_nonneg_left hgc (by linarith : 0 ≤ p * (1 + 1 / 2 ^ 18))
  have : 1 ≤ p * c := one_le_mul_of_one_le_of_one_le hp hc
  rw [growth_eq]
  linarith

/-- The rows of a leading block, reflected. -/
theorem HasShortBlock.applyRight (h : a.HasShortBlock v.order c) (hv : v.IsShort p) (hp : 1 ≤ p)
    (hp2 : p ≤ 2) (hvn : v.order ≤ n) (hc : 1 ≤ c) (hsize : 2 ^ 4 * c + 2 < safeBound) :
    (v.applyRight a).HasShortBlock v.order (growth p * c) := by
  have hrow := fun j (hj : j < v.order) => hv.row hp hp2 (h.isFinite j hj) le_rfl
    (by linarith [h.length_le, row_le_blockLength (a := a) hj])
  have hentry : ∀ j < v.order, ∀ k < v.order, v.applyRight a j k
      = a j k - v.sum (fun l => (v.coordinate l).conj * a j l) * v.coordinate k := by
    intro j hj k hk
    rw [applyRight_apply v a (hj.trans_le hvn) (hk.trans_le hvn), if_pos ⟨hj, hk⟩]
  constructor
  · intro j hj k hk
    rw [hentry j hj k hk]
    exact (hrow j hj).1 k hk
  · refine lengths_le_growth hv.order_le hp hc (fun j => normUpTo_nonneg _ _)
      (fun j => normUpTo_nonneg _ _) (fun j hj => ?_) h.length_le
    refine le_trans (normUpTo_congr fun k hk => ?_).le (hrow j hj).2
    rw [hentry j hj k hk]

/-- The columns of a leading block, reflected. -/
theorem HasShortBlock.applyLeft (h : a.HasShortBlock v.order c) (hv : v.IsShort p) (hp : 1 ≤ p)
    (hp2 : p ≤ 2) (hvn : v.order ≤ n) (hc : 1 ≤ c) (hsize : 2 ^ 4 * c + 2 < safeBound) :
    (v.applyLeft n a).HasShortBlock v.order (growth p * c) := by
  have hcolumn := fun j (hj : j < v.order) => hv.column hp hp2
    (fun k hk => h.isFinite k hk j hj) le_rfl
    (by linarith [h.length_le, column_le_blockLength (a := a) hj])
  have hentry : ∀ k < v.order, ∀ j < v.order, v.applyLeft n a k j
      = a k j - v.sum (fun l => v.coordinate l * a l j) * (v.coordinate k).conj := by
    intro k hk j hj
    rw [applyLeft_apply v n a (hk.trans_le hvn) (hj.trans_le hvn), if_pos ⟨hk, hj.trans_le hvn⟩]
  constructor
  · intro k hk j hj
    rw [hentry k hk j hj]
    exact (hcolumn j hj).1 k hk
  · rw [blockLength_eq]
    refine lengths_le_growth hv.order_le hp hc (fun j => normUpTo_nonneg _ _)
      (fun j => normUpTo_nonneg _ _) (fun j hj => ?_) (blockLength_eq v.order a ▸ h.length_le)
    refine le_trans (normUpTo_congr fun k hk => ?_).le (hcolumn j hj).2
    rw [hentry k hk j hj]

end DenseMatrix

namespace Reduction

open Reflection

variable {p c : ℝ}

/-- One row: the block that is left is longer by two reflections at most. -/
theorem clearRow_hasShortBlock {r : Reduction n Float} {i : ℕ} (hin : i < n)
    (h : r.matrix.HasShortBlock (i + 1) c) (hp : 1 ≤ p) (hp2 : p ≤ 2) (hc : 1 ≤ c)
    (hshort : ∀ v x, ofRow? i (r.matrix i) = some (v, x) → v.IsShort p)
    (hsize : 2 ^ 4 * (growth p * c) + 2 < safeBound) :
    (r.clearRow i).matrix.HasShortBlock i (growth p ^ 2 * c) := by
  have hgrowth := one_le_growth hp
  have hgrown : c ≤ growth p * c := le_mul_of_one_le_left (by linarith) hgrowth
  have hrow (x : Complex Float) : (withRow r.matrix i x).HasShortBlock i c := by
    refine (h.of_le (Nat.le_succ i)).congr fun j hj k hk => ?_
    rw [withRow_apply _ _ _ (hj.trans hin) (hk.trans hin), if_neg fun h => hj.ne h.1]
  cases hv : ofRow? i (r.matrix i) with
  | none =>
      rw [clearRow_of_none hv]
      refine ⟨(hrow 0).isFinite, (hrow 0).length_le.trans ?_⟩
      exact le_mul_of_one_le_left (by linarith) (one_le_pow₀ hgrowth)
  | some s =>
      obtain ⟨v, x⟩ := s
      have hvshort := hshort v x hv
      obtain rfl := order_of_ofRow? hv
      rw [clearRow_of_some hv, pow_two, mul_assoc]
      exact ((hrow x).applyRight hvshort hp hp2 hin.le hc (by linarith)).applyLeft hvshort hp hp2
        hin.le (hc.trans hgrown) hsize

end Reduction

end DenseNumeric
