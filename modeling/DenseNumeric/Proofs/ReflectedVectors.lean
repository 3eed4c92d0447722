import Mathlib
import DenseNumeric.Proofs.RoundingErrors
import DenseNumeric.Proofs.ZeroPattern

/-!
# Reflected vectors

What one reflection in double precision does to the length of a row or column.
Exactly, a vector of length `l` gives a map that lengthens nothing by more than
a factor of `max 1 (l ^ 2 - 1)`: it is unitary if `l ^ 2` is two, and what has
to be known of a vector that is off is only how large it is. Rounding adds a
small part of the length, as long as there are at most `2 ^ 20` coordinates.

A reflection is applied to rows with its vector, and to columns with the
conjugate. The lemmas here are about a vector `b` and its conjugate `c`, which
covers both.
-/

namespace DenseNumeric

open Binary

/-! ## Lengths of the first coordinates -/

/-- The length of the first `m` coordinates. -/
noncomputable def normUpTo (m : ℕ) (f : ℕ → ℂ) : ℝ := √(∑ k ∈ Finset.range m, ‖f k‖ ^ 2)

section Lengths

variable {m : ℕ} {f g h b w : ℕ → ℂ}

theorem normUpTo_nonneg (m : ℕ) (f : ℕ → ℂ) : 0 ≤ normUpTo m f := Real.sqrt_nonneg _

theorem sq_normUpTo (m : ℕ) (f : ℕ → ℂ) : normUpTo m f ^ 2 = ∑ k ∈ Finset.range m, ‖f k‖ ^ 2 :=
  Real.sq_sqrt (by positivity)

theorem normUpTo_mono (h : ∀ k < m, ‖f k‖ ≤ ‖g k‖) : normUpTo m f ≤ normUpTo m g := by
  refine Real.sqrt_le_sqrt (Finset.sum_le_sum fun k hk => ?_)
  exact pow_le_pow_left₀ (norm_nonneg _) (h k (Finset.mem_range.1 hk)) 2

theorem normUpTo_congr (h : ∀ k < m, ‖f k‖ = ‖g k‖) : normUpTo m f = normUpTo m g :=
  le_antisymm (normUpTo_mono fun k hk => (h k hk).le) (normUpTo_mono fun k hk => (h k hk).ge)

theorem norm_le_normUpTo {k : ℕ} (hk : k < m) : ‖f k‖ ≤ normUpTo m f := by
  refine Real.le_sqrt_of_sq_le ?_
  exact Finset.single_le_sum (f := fun k => ‖f k‖ ^ 2) (fun _ _ => by positivity)
    (Finset.mem_range.2 hk)

theorem normUpTo_le_normUpTo {n : ℕ} (hmn : m ≤ n) : normUpTo m f ≤ normUpTo n f := by
  refine Real.sqrt_le_sqrt (Finset.sum_le_sum_of_subset_of_nonneg ?_ fun _ _ _ => by positivity)
  exact Finset.range_subset_range.2 hmn

theorem normUpTo_eq_norm (m : ℕ) (f : ℕ → ℂ) :
    normUpTo m f = ‖WithLp.toLp 2 fun k : Fin m => f k‖ := by
  rw [EuclideanSpace.norm_eq, normUpTo, Fin.sum_univ_eq_sum_range fun k => ‖f k‖ ^ 2]

theorem normUpTo_add_le (m : ℕ) (f g : ℕ → ℂ) :
    normUpTo m (fun k => f k + g k) ≤ normUpTo m f + normUpTo m g := by
  rw [normUpTo_eq_norm, normUpTo_eq_norm, normUpTo_eq_norm]
  exact norm_add_le (WithLp.toLp 2 fun k : Fin m => f k) (WithLp.toLp 2 fun k : Fin m => g k)

theorem normUpTo_mul (m : ℕ) (x : ℂ) (f : ℕ → ℂ) :
    normUpTo m (fun k => x * f k) = ‖x‖ * normUpTo m f := by
  rw [normUpTo_eq_norm, normUpTo_eq_norm]
  exact norm_smul x (WithLp.toLp 2 fun k : Fin m => f k)

theorem normUpTo_norm (m : ℕ) (f : ℕ → ℂ) : normUpTo m (fun k => (‖f k‖ : ℂ)) = normUpTo m f :=
  normUpTo_congr fun k _ => by simp

theorem normUpTo_le_sqrt_mul {x : ℝ} (hx : 0 ≤ x) (hf : ∀ k < m, ‖f k‖ ≤ x) :
    normUpTo m f ≤ √m * x := by
  have hsum : ∑ k ∈ Finset.range m, ‖f k‖ ^ 2 ≤ m * x ^ 2 := by
    rw [← nsmul_eq_mul, ← Finset.card_range m, ← Finset.sum_const, Finset.card_range]
    refine Finset.sum_le_sum fun k hk => ?_
    exact pow_le_pow_left₀ (norm_nonneg _) (hf k (Finset.mem_range.1 hk)) 2
  refine (Real.sqrt_le_sqrt hsum).trans ?_
  rw [Real.sqrt_mul m.cast_nonneg, Real.sqrt_sq hx]

theorem normUpTo_const_le (m : ℕ) {x : ℝ} (hx : 0 ≤ x) : normUpTo m (fun _ => (x : ℂ)) ≤ m * x := by
  have hroot : √(m : ℝ) ≤ m := by
    refine Real.sqrt_le_iff.2 ⟨m.cast_nonneg, ?_⟩
    exact_mod_cast Nat.le_self_pow two_ne_zero m
  refine (normUpTo_le_sqrt_mul hx fun k _ => ?_).trans (mul_le_mul_of_nonneg_right hroot hx)
  rw [Complex.norm_real, Real.norm_of_nonneg hx]

/-- Errors that are small beside two vectors. -/
theorem normUpTo_le_of_le {x y t : ℝ} (hx : 0 ≤ x) (hy : 0 ≤ y) (ht : 0 ≤ t)
    (hf : ∀ k < m, ‖f k‖ ≤ x * ‖g k‖ + y * ‖h k‖ + t) :
    normUpTo m f ≤ x * normUpTo m g + y * normUpTo m h + m * t := by
  have hsum : normUpTo m f ≤ normUpTo m fun k => ((x : ℂ) * ‖g k‖ + (y : ℂ) * ‖h k‖) + (t : ℂ) := by
    refine normUpTo_mono fun k hk => (hf k hk).trans (le_of_eq ?_)
    have hreal : (x : ℂ) * ‖g k‖ + (y : ℂ) * ‖h k‖ + t = ((x * ‖g k‖ + y * ‖h k‖ + t : ℝ) : ℂ) := by
      push_cast
      rfl
    rw [hreal, Complex.norm_real, Real.norm_of_nonneg (by positivity)]
  calc normUpTo m f ≤ _ := hsum
    _ ≤ _ := normUpTo_add_le _ _ _
    _ ≤ _ := add_le_add (normUpTo_add_le _ _ _) (normUpTo_const_le m ht)
    _ = _ := by
      rw [normUpTo_mul, normUpTo_mul, normUpTo_norm, normUpTo_norm, Complex.norm_real,
        Complex.norm_real, Real.norm_of_nonneg hx, Real.norm_of_nonneg hy]

theorem sum_norm_mul_le (m : ℕ) (f g : ℕ → ℂ) :
    ∑ k ∈ Finset.range m, ‖f k‖ * ‖g k‖ ≤ normUpTo m f * normUpTo m g :=
  Real.sum_mul_le_sqrt_mul_sqrt _ _ _

theorem norm_sum_mul_le (m : ℕ) (f g : ℕ → ℂ) :
    ‖∑ k ∈ Finset.range m, f k * g k‖ ≤ normUpTo m f * normUpTo m g := by
  refine (norm_sum_le _ _).trans ((Finset.sum_le_sum fun k _ => ?_).trans (sum_norm_mul_le m f g))
  exact (norm_mul _ _).le

/-- A coordinate that is left as it is does not change by how much a vector is lengthened. -/
theorem normUpTo_le_of_tail {n : ℕ} {x t : ℝ} (hmn : m ≤ n) (hx : 1 ≤ x) (ht : 0 ≤ t)
    (htail : ∀ k, m ≤ k → k < n → f k = g k) (hf : normUpTo m f ≤ x * normUpTo m g + t) :
    normUpTo n f ≤ x * normUpTo n g + t := by
  have hsplit (f : ℕ → ℂ) : normUpTo n f ^ 2
      = normUpTo m f ^ 2 + ∑ k ∈ Finset.Ico m n, ‖f k‖ ^ 2 := by
    rw [sq_normUpTo, sq_normUpTo, Finset.sum_range_add_sum_Ico _ hmn]
  have hrest : ∑ k ∈ Finset.Ico m n, ‖f k‖ ^ 2 = ∑ k ∈ Finset.Ico m n, ‖g k‖ ^ 2 := by
    refine Finset.sum_congr rfl fun k hk => ?_
    rw [htail k (Finset.mem_Ico.1 hk).1 (Finset.mem_Ico.1 hk).2]
  have hf2 := hsplit f
  have hg2 := hsplit g
  have hnonneg : 0 ≤ ∑ k ∈ Finset.Ico m n, ‖g k‖ ^ 2 := by positivity
  rw [hrest] at hf2
  have hg0 := normUpTo_nonneg m g
  have hle : normUpTo m g ≤ normUpTo n g :=
    (sq_le_sq₀ hg0 (normUpTo_nonneg n g)).1 (by linarith)
  have hbound : 0 ≤ x * normUpTo n g + t :=
    add_nonneg (mul_nonneg (by linarith) (normUpTo_nonneg n g)) ht
  refine (sq_le_sq₀ (normUpTo_nonneg n f) hbound).1 ?_
  have hsq := pow_le_pow_left₀ (normUpTo_nonneg m f) hf 2
  have hcross : 0 ≤ x * t * (normUpTo n g - normUpTo m g) :=
    mul_nonneg (mul_nonneg (by linarith) ht) (by linarith)
  have hgrow : 0 ≤ (x ^ 2 - 1) * ∑ k ∈ Finset.Ico m n, ‖g k‖ ^ 2 :=
    mul_nonneg (by nlinarith) hnonneg
  rw [hf2]
  nlinarith

/-- A multiple of the conjugate of `b` is subtracted, as a reflection does. -/
theorem normUpTo_reflect_le (m : ℕ) (b w : ℕ → ℂ) :
    normUpTo m (fun k => w k - (∑ l ∈ Finset.range m, b l * w l) * star (b k))
      ≤ max 1 (normUpTo m b ^ 2 - 1) * normUpTo m w := by
  set s := ∑ l ∈ Finset.range m, b l * w l with hs
  have hterm (k : ℕ) : ‖w k - s * star (b k)‖ ^ 2
      = ‖w k‖ ^ 2 - 2 * (star s * (b k * w k)).re + ‖s‖ ^ 2 * ‖b k‖ ^ 2 := by
    have hcross : w k * (starRingEnd ℂ) (s * star (b k)) = star s * (b k * w k) := by
      simp only [map_mul, RCLike.star_def, Complex.conj_conj]
      ring
    rw [Complex.sq_norm, Complex.normSq_sub, hcross, Complex.normSq_mul, ← Complex.sq_norm,
      ← Complex.sq_norm, ← Complex.sq_norm, norm_star]
    ring
  have hinner : ∑ k ∈ Finset.range m, (star s * (b k * w k)).re = ‖s‖ ^ 2 := by
    rw [← Complex.re_sum, ← Finset.mul_sum, ← hs, RCLike.star_def,
      ← Complex.normSq_eq_conj_mul_self, Complex.ofReal_re, Complex.sq_norm]
  have hlength : normUpTo m (fun k => w k - s * star (b k)) ^ 2
      = normUpTo m w ^ 2 - ‖s‖ ^ 2 * (2 - normUpTo m b ^ 2) := by
    rw [sq_normUpTo, sq_normUpTo, sq_normUpTo, Finset.sum_congr rfl fun k _ => hterm k,
      Finset.sum_add_distrib, Finset.sum_sub_distrib, ← Finset.mul_sum, ← Finset.mul_sum, hinner]
    ring
  have hw := normUpTo_nonneg m w
  have hsize : ‖s‖ ^ 2 ≤ normUpTo m b ^ 2 * normUpTo m w ^ 2 := by
    rw [← mul_pow]
    exact pow_le_pow_left₀ (norm_nonneg s) (norm_sum_mul_le m b w) 2
  refine (sq_le_sq₀ (normUpTo_nonneg m _) (by positivity)).1 ?_
  rw [hlength, mul_pow]
  rcases le_total (normUpTo m b ^ 2) 2 with hle | hle
  · rw [max_eq_left (by linarith)]
    nlinarith [sq_nonneg ‖s‖]
  · rw [max_eq_right (by linarith)]
    nlinarith [mul_le_mul_of_nonneg_right hsize (sub_nonneg.2 hle)]

end Lengths

/-! ## Reflections in double precision -/

/-- The largest order that the bounds on rounding errors are made for. -/
def orderLimit : ℕ := 2 ^ 20

theorem mul_roundoff_le {k : ℕ} (hk : k ≤ orderLimit) : k * roundoff ≤ 1 / 2 ^ 33 := by
  have hcast : (k : ℝ) ≤ 2 ^ 20 := by exact_mod_cast hk
  rw [roundoff_eq]
  calc (k : ℝ) * (1 / 2 ^ 53) ≤ 2 ^ 20 * (1 / 2 ^ 53) :=
        mul_le_mul_of_nonneg_right hcast (by norm_num)
    _ = 1 / 2 ^ 33 := by norm_num

theorem mul_underflow_le {k : ℕ} (hk : k ≤ orderLimit) : k * underflow ≤ 1 / 2 ^ 180 := by
  have hcast : (k : ℝ) ≤ 2 ^ 20 := by exact_mod_cast hk
  calc (k : ℝ) * underflow ≤ 2 ^ 20 * (1 / 2 ^ 200) :=
        mul_le_mul hcast underflow_le underflow_pos.le (by norm_num)
    _ = 1 / 2 ^ 180 := by norm_num

namespace Reflection

variable {v : Reflection Float}

theorem sum_near {f : ℕ → Complex Float} {a : ℝ} (hpos : 0 < v.order)
    (horder : v.order ≤ orderLimit) (hf : ∀ k < v.order, (f k).isFinite = true)
    (ha : ∑ k ∈ Finset.range v.order, ‖(f k).value‖ ≤ a) (hsize : 2 * a + 1 < safeBound) :
    (v.sum f).Near (∑ k ∈ Finset.range v.order, (f k).value) (a / 2 ^ 31 + 1 / 2 ^ 178) := by
  obtain ⟨m, hm⟩ : ∃ m, v.order = m + 1 := ⟨v.order - 1, by omega⟩
  have hmlimit : m ≤ orderLimit := by omega
  have hmu := mul_roundoff_le hmlimit
  have hmη := mul_underflow_le hmlimit
  rw [hm, Finset.sum_range_succ, add_comm] at ha
  have ha0 : 0 ≤ a := le_trans (by positivity) ha
  rw [sum, hm, Nat.add_sub_cancel, Finset.sum_range_succ, add_comm]
  have hadd : ∀ z w : Complex Float, z.isFinite = true → w.isFinite = true →
      ‖z.value‖ + ‖w.value‖ < safeBound → (z + w).isFinite = true ∧
        ‖(z + w).value - (z.value + w.value)‖
          ≤ 2 * roundoff * ‖z.value + w.value‖ + 2 * underflow := by
    intro z w hz hw hzw
    have hnear := Complex.add_near hz hw ((norm_add_le _ _).trans_lt hzw)
    exact ⟨hnear.isFinite, hnear.error_le⟩
  obtain ⟨hfinite, herror⟩ := foldl_range_near (by linarith [roundoff_pos])
    (by linarith [underflow_pos]) hadd (k := m) (f := f) (by linarith) (hf m (by omega))
    (fun k hk => hf k (by omega)) ha (by linarith)
  refine ⟨hfinite, herror.trans ?_⟩
  have : 2 * m * (2 * roundoff * a + 2 * underflow)
      = 4 * (m * roundoff) * a + 4 * (m * underflow) := by ring
  rw [this]
  have := mul_le_mul_of_nonneg_right hmu ha0
  linarith

/-- The product of two vectors is off by a small part of their lengths. -/
theorem dot_near {b w : ℕ → Complex Float} {a : ℝ} (hpos : 0 < v.order)
    (horder : v.order ≤ orderLimit) (hb : ∀ k < v.order, (b k).isFinite = true)
    (hlength : normUpTo v.order (fun k => (b k).value) ≤ 2)
    (hw : ∀ k < v.order, (w k).isFinite = true)
    (ha : normUpTo v.order (fun k => (w k).value) ≤ a) (hsize : 2 ^ 4 * a + 2 < safeBound) :
    (v.sum fun l => b l * w l).Near (∑ k ∈ Finset.range v.order, (b k).value * (w k).value)
      (a / 2 ^ 28 + 1 / 2 ^ 170) := by
  have hu := roundoff_eq
  have hmη := mul_underflow_le horder
  have ha0 : 0 ≤ a := (normUpTo_nonneg _ _).trans ha
  have hbw : ∑ k ∈ Finset.range v.order, ‖(b k).value‖ * ‖(w k).value‖ ≤ 2 * a :=
    (sum_norm_mul_le _ _ _).trans (mul_le_mul hlength ha (normUpTo_nonneg _ _) zero_le_two)
  have hproduct : ∀ k < v.order, (b k * w k).Near ((b k).value * (w k).value)
      (6 * roundoff * (‖(b k).value‖ * ‖(w k).value‖) + 8 * underflow) := by
    intro k hk
    have hterm : ‖(b k).value‖ * ‖(w k).value‖ ≤ 2 * a :=
      mul_le_mul ((norm_le_normUpTo hk).trans hlength) ((norm_le_normUpTo hk).trans ha)
        (norm_nonneg _) zero_le_two
    exact Complex.mul_near (hb k hk) (hw k hk) (by linarith)
  have herrors : ∑ k ∈ Finset.range v.order,
      (6 * roundoff * (‖(b k).value‖ * ‖(w k).value‖) + 8 * underflow)
        ≤ a / 2 ^ 40 + 1 / 2 ^ 177 := by
    rw [Finset.sum_add_distrib, ← Finset.mul_sum, Finset.sum_const, Finset.card_range,
      nsmul_eq_mul, hu]
    linarith
  have hterms : ∑ k ∈ Finset.range v.order, ‖(b k * w k).value‖ ≤ 3 * a + 1 / 2 ^ 177 := by
    have hle : ∀ k ∈ Finset.range v.order, ‖(b k * w k).value‖ ≤ ‖(b k).value‖ * ‖(w k).value‖
        + (6 * roundoff * (‖(b k).value‖ * ‖(w k).value‖) + 8 * underflow) := fun k hk => by
      rw [← norm_mul]
      exact (hproduct k (Finset.mem_range.1 hk)).norm_le.trans (by rw [norm_mul])
    have := Finset.sum_le_sum hle
    rw [Finset.sum_add_distrib] at this
    linarith
  have hsum := sum_near hpos horder (fun k hk => (hproduct k hk).isFinite) hterms (by linarith)
  have hproducts : ‖∑ k ∈ Finset.range v.order, (b k * w k).value
      - ∑ k ∈ Finset.range v.order, (b k).value * (w k).value‖ ≤ a / 2 ^ 40 + 1 / 2 ^ 177 := by
    rw [← Finset.sum_sub_distrib]
    refine (norm_sum_le_of_le _ fun k hk => ?_).trans herrors
    exact (hproduct k (Finset.mem_range.1 hk)).error_le
  refine ⟨hsum.isFinite, (norm_sub_le_norm_sub_add_norm_sub _ (∑ k ∈ Finset.range v.order,
    (b k * w k).value) _).trans ?_⟩
  linarith [hsum.error_le]

/-- One coordinate: a multiple of `β` is subtracted, where the factor is off and the product
is rounded. -/
theorem reflect_entry_near {w c d : Complex Float} {s β : ℂ} {a : ℝ}
    (hd : d.Near s (a / 2 ^ 28 + 1 / 2 ^ 170)) (hs : ‖s‖ ≤ 2 * a) (hw : w.isFinite = true)
    (hwa : ‖w.value‖ ≤ a) (hc : c.isFinite = true) (hcβ : c.value = star β) (hβ : ‖β‖ ≤ 2)
    (hsize : 2 ^ 4 * a + 2 < safeBound) :
    (w - d * c).Near (w.value - s * star β)
      ((a / 2 ^ 27 + 1 / 2 ^ 169) * ‖β‖ + 1 / 2 ^ 52 * ‖w.value‖ + 12 * underflow) := by
  have ha0 : 0 ≤ a := (norm_nonneg _).trans hwa
  have hβ0 := norm_nonneg β
  have hfactor : ‖d.value‖ ≤ 3 * a + 1 / 2 ^ 170 := by linarith [hd.norm_le]
  have hproduct : ‖d.value‖ * ‖β‖ ≤ (3 * a + 1 / 2 ^ 170) * ‖β‖ :=
    mul_le_mul_of_nonneg_right hfactor hβ0
  have hproduct' : (3 * a + 1 / 2 ^ 170) * ‖β‖ ≤ (3 * a + 1 / 2 ^ 170) * 2 :=
    mul_le_mul_of_nonneg_left hβ (by positivity)
  have hnear := Complex.sub_mul_near hw hd.isFinite hc (by
    rw [hcβ, norm_star]
    linarith)
  rw [hcβ, norm_star] at hnear
  refine ⟨hnear.isFinite, (norm_sub_le_norm_sub_add_norm_sub _ (w.value - d.value * star β)
    _).trans ?_⟩
  have hcoefficient : ‖w.value - d.value * star β - (w.value - s * star β)‖
      ≤ (a / 2 ^ 28 + 1 / 2 ^ 170) * ‖β‖ := by
    rw [sub_sub_sub_cancel_left, ← sub_mul, norm_mul, norm_star, norm_sub_rev]
    exact mul_le_mul_of_nonneg_right hd.error_le hβ0
  have herror := hnear.error_le
  rw [roundoff_eq] at herror
  have : 0 ≤ a * ‖β‖ := by positivity
  linarith

/-- A reflection applied to a vector `w`, with the vector `b` and its conjugate `c`. -/
theorem reflect_near {b c w : ℕ → Complex Float} {a : ℝ} (hpos : 0 < v.order)
    (horder : v.order ≤ orderLimit) (hb : ∀ k < v.order, (b k).isFinite = true)
    (hc : ∀ k < v.order, (c k).isFinite = true ∧ (c k).value = star (b k).value)
    (hlength : normUpTo v.order (fun k => (b k).value) ≤ 2)
    (hw : ∀ k < v.order, (w k).isFinite = true)
    (ha : normUpTo v.order (fun k => (w k).value) ≤ a) (hsize : 2 ^ 4 * a + 2 < safeBound) :
    (∀ k < v.order, (w k - v.sum (fun l => b l * w l) * c k).isFinite = true) ∧
      normUpTo v.order (fun k => (w k - v.sum (fun l => b l * w l) * c k).value)
        ≤ (max 1 (normUpTo v.order (fun k => (b k).value) ^ 2 - 1) + 1 / 2 ^ 25) * a
          + 1 / 2 ^ 150 := by
  have hη0 := underflow_pos
  have hmη := mul_underflow_le horder
  have ha0 : 0 ≤ a := (normUpTo_nonneg _ _).trans ha
  have hdot := dot_near hpos horder hb hlength hw ha hsize
  set s := ∑ k ∈ Finset.range v.order, (b k).value * (w k).value
  set d := v.sum fun l => b l * w l
  have hs : ‖s‖ ≤ 2 * a :=
    (norm_sum_mul_le _ _ _).trans (mul_le_mul hlength ha (normUpTo_nonneg _ _) zero_le_two)
  have hstep : ∀ k < v.order, (w k - d * c k).Near ((w k).value - s * star (b k).value)
      ((a / 2 ^ 27 + 1 / 2 ^ 169) * ‖(b k).value‖ + 1 / 2 ^ 52 * ‖(w k).value‖
        + 12 * underflow) := fun k hk =>
    reflect_entry_near hdot hs (hw k hk) ((norm_le_normUpTo hk).trans ha) (hc k hk).1 (hc k hk).2
      ((norm_le_normUpTo hk).trans hlength) hsize
  refine ⟨fun k hk => (hstep k hk).isFinite, ?_⟩
  have herror := normUpTo_le_of_le (by positivity) (by positivity) (by linarith)
    fun k hk => (hstep k hk).error_le
  have hexact := normUpTo_reflect_le v.order (fun k => (b k).value) fun k => (w k).value
  have hgrown := mul_le_mul_of_nonneg_left ha
    (le_max_of_le_left zero_le_one : 0 ≤ max 1 (normUpTo v.order (fun k => (b k).value) ^ 2 - 1))
  have hsmall := mul_le_mul_of_nonneg_left hlength (by positivity : 0 ≤ a / 2 ^ 27 + 1 / 2 ^ 169)
  have hsplit := normUpTo_add_le v.order
    (fun k => (w k - d * c k).value - ((w k).value - s * star (b k).value))
    fun k => (w k).value - s * star (b k).value
  simp only [sub_add_cancel] at hsplit
  linarith

end Reflection

end DenseNumeric
