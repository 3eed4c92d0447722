import Mathlib
import DenseNumeric.Proofs.FloatLengths

/-!
# Rounding errors

How far a result is from the exact one: a relative error of `roundoff`, and an
absolute one of `underflow`, where the format has no more digits below. Both
are kept, as a result is not asked to be of normal size anywhere.

Sums are where errors add up. A sum of `k` terms is off by what `(1 + u) ^ k`
makes of the sum of their sizes (`foldl_error_le`); it is proved once, for sums of
doubles and of pairs of them.
-/

namespace DenseNumeric

open Binary

/-! ## One rounding -/

namespace Binary

/-- The relative error of one rounding. -/
noncomputable def roundoff : ℝ := ((2 : ℕ) : ℝ) ^ (-53 : ℤ)

/-- The absolute error of one rounding, half the smallest number. -/
noncomputable def underflow : ℝ := ((2 : ℕ) : ℝ) ^ (-1075 : ℤ)

theorem roundoff_eq : roundoff = 1 / 2 ^ 53 := by
  rw [roundoff, Nat.cast_ofNat]
  norm_num

theorem roundoff_pos : 0 < roundoff := zpow_pos (Nat.cast_pos.2 two_pos) _

theorem underflow_pos : 0 < underflow := zpow_pos (Nat.cast_pos.2 two_pos) _

/-- All that is asked of `underflow`: it is lost beside what is added up here. -/
theorem underflow_le : underflow ≤ 1 / 2 ^ 200 := by
  have hpow : (1 : ℝ) / 2 ^ 200 = 2 ^ (-200 : ℤ) := by norm_num
  rw [underflow, Nat.cast_ofNat, hpow]
  exact zpow_le_zpow_right₀ one_le_two (by norm_num)

/-- A significand may be as large as the first power of two that does not fit. -/
theorem isNumber_of_abs_le {m e : ℤ} (hm : |m| ≤ 2 ^ 53) (he : -1074 ≤ e) :
    IsNumber .binary64 (m * 2 ^ e) := by
  rcases hm.lt_or_eq with hlt | heq
  · exact isNumber_iff.2 ⟨m, e, hlt, he, rfl⟩
  · have hpow : IsNumber .binary64 (2 ^ (53 + e)) := isNumber_two_zpow (by
      show -1074 ≤ 53 + e
      omega)
    have hcast : (2 : ℝ) ^ (53 + e) = ((2 ^ 53 : ℤ) : ℝ) * 2 ^ e := by
      rw [zpow_add₀ two_ne_zero]
      norm_num
    rw [hcast] at hpow
    rcases abs_choice m with h | h
    · rwa [← h, heq]
    · have hneg := hpow.neg
      rwa [← neg_mul, ← Int.cast_neg, ← heq, h, neg_neg] at hneg

theorem IsNearest.abs_sub_le {x y : ℝ} (h : IsNearest .binary64 x y) :
    |y - x| ≤ roundoff * |x| + underflow := by
  rcases eq_or_ne x 0 with rfl | hx
  · rw [h.eq_of_isNumber (isNumber_zero _), sub_zero, abs_zero, mul_zero, zero_add]
    exact underflow_pos.le
  · -- the number to compare with has 53 digits, or the last place is that of the smallest number
    obtain ⟨k, hlow, hhigh⟩ := exists_mem_Ico_zpow (abs_pos.2 hx) one_lt_two
    set e := max (k - 52) (-1074) with he
    have hunit : (0 : ℝ) < 2 ^ e := zpow_pos two_pos e
    have hround : |x / 2 ^ e - round (x / 2 ^ e)| ≤ 1 / 2 := abs_sub_round _
    have hsize : |x / 2 ^ e| < 2 ^ 53 := by
      rw [abs_div, abs_of_pos hunit, div_lt_iff₀ hunit]
      calc |x| < 2 ^ (k + 1) := hhigh
        _ ≤ 2 ^ (53 + e) := zpow_le_zpow_right₀ one_le_two (by omega)
        _ = 2 ^ 53 * 2 ^ e := by
          rw [zpow_add₀ two_ne_zero]
          norm_num
    have hm : |round (x / 2 ^ e)| ≤ 2 ^ 53 := by
      have hlt : |((round (x / 2 ^ e) : ℤ) : ℝ)| < 2 ^ 53 + 1 := by
        have := abs_sub_abs_le_abs_sub ((round (x / 2 ^ e) : ℤ) : ℝ) (x / 2 ^ e)
        rw [abs_sub_comm] at this
        linarith
      exact Int.lt_add_one_iff.1 (by exact_mod_cast hlt)
    have hnear := h.le _ (isNumber_of_abs_le hm (le_max_right (k - 52) (-1074)))
    have hdiff : x - round (x / 2 ^ e) * 2 ^ e = (x / 2 ^ e - round (x / 2 ^ e)) * 2 ^ e := by
      field_simp
    rw [hdiff, abs_mul, abs_of_pos hunit, abs_sub_comm] at hnear
    have hhalf : |y - x| ≤ 1 / 2 * 2 ^ e :=
      hnear.trans (mul_le_mul_of_nonneg_right hround hunit.le)
    have hsum : 1 / 2 * (2 : ℝ) ^ e ≤ roundoff * 2 ^ k + underflow := by
      rw [roundoff, underflow, Nat.cast_ofNat, ← zpow_add₀ two_ne_zero]
      have hfirst : 1 / 2 * (2 : ℝ) ^ e = 2 ^ (e - 1) := by
        rw [zpow_sub_one₀ two_ne_zero]
        ring
      rw [hfirst]
      rcases max_choice (k - 52) (-1074) with h | h
      · have : e - 1 = -53 + k := by omega
        rw [this]
        exact le_add_of_nonneg_right (zpow_pos two_pos _).le
      · have : e - 1 = -1075 := by omega
        rw [this]
        exact le_add_of_nonneg_left (zpow_pos two_pos _).le
    have := mul_le_mul_of_nonneg_left hlow roundoff_pos.le
    linarith

/-- `x` is finite, and at most `e` away from `r`. -/
structure Near (x : Float) (r e : ℝ) : Prop where
  isFinite : x.isFinite = true
  error_le : |toReal x - r| ≤ e

section Near

variable {x y : Float} {r s e c : ℝ}

theorem RoundsTo.near (h : RoundsTo r y) : Near y r (roundoff * |r| + underflow) :=
  ⟨h.isFinite, h.isNearest.abs_sub_le⟩

theorem Rounds.near (h : Rounds r y) (hr : |r| < safeBound) :
    Near y r (roundoff * |r| + underflow) :=
  (h.roundsTo hr).near

theorem Near.mono (h : Near x r e) (hec : e ≤ c) : Near x r c := ⟨h.isFinite, h.error_le.trans hec⟩

theorem Near.le_add (h : Near x r e) : toReal x ≤ r + e := by
  linarith [le_abs_self (toReal x - r), h.error_le]

theorem Near.sub_le (h : Near x r e) : r - e ≤ toReal x := by
  linarith [neg_abs_le (toReal x - r), h.error_le]

theorem Near.abs_le (h : Near x r e) : |toReal x| ≤ |r| + e := by
  have := abs_sub_abs_le_abs_sub (toReal x) r
  linarith [h.error_le]

theorem Near.neg (h : Near x r e) : Near (-x) (-r) e := by
  obtain ⟨hfinite, hvalue⟩ := neg_spec h.isFinite
  refine ⟨hfinite, ?_⟩
  rw [hvalue, neg_sub_neg, abs_sub_comm]
  exact h.error_le

/-- The rounded sum of two rounded results. -/
theorem Near.sum (hx : Near x r (roundoff * |r| + underflow))
    (hy : Near y s (roundoff * |s| + underflow)) {z : Float} (hz : Rounds (toReal x + toReal y) z)
    (hc : |r| + |s| ≤ c) (hsize : 2 * c + 1 < safeBound) :
    Near z (r + s) (3 * roundoff * c + 4 * underflow) := by
  have hu := roundoff_pos
  have hη := underflow_pos
  have hη' := underflow_le
  have hhalf : roundoff ≤ 1 / 2 := by
    rw [roundoff_eq]
    norm_num
  have hc0 : 0 ≤ c := le_trans (by positivity) hc
  have huc := mul_le_mul_of_nonneg_left hc hu.le
  have huc' := mul_le_mul_of_nonneg_right hhalf hc0
  have huη := mul_le_mul_of_nonneg_right hhalf hη.le
  rw [mul_add] at huc
  have hsum : |toReal x + toReal y - (r + s)| ≤ roundoff * c + 2 * underflow := by
    rw [add_sub_add_comm]
    linarith [abs_add_le (toReal x - r) (toReal y - s), hx.error_le, hy.error_le]
  have hexact : |toReal x + toReal y| ≤ 3 / 2 * c + 2 * underflow := by
    have := abs_sub_abs_le_abs_sub (toReal x + toReal y) (r + s)
    linarith [abs_add_le r s]
  have hlast := hz.near (by linarith)
  refine ⟨hlast.isFinite, ?_⟩
  have htriangle := abs_sub_le (toReal z) (toReal x + toReal y) (r + s)
  have hrel := mul_le_mul_of_nonneg_left hexact hu.le
  linarith [hlast.error_le, mul_nonneg hu.le hc0]

end Near

/-- Growth by a small rate, a limited number of times. -/
theorem one_add_pow_le {u : ℝ} {k : ℕ} (hu : 0 ≤ u) (hk : 2 * (k * u) ≤ 1) :
    (1 + u) ^ k ≤ 1 + 2 * (k * u) := by
  induction k with
  | zero => simp
  | succ k ih =>
      rw [Nat.cast_succ, add_mul, one_mul, mul_add] at hk ⊢
      have hk0 : 0 ≤ k * u := mul_nonneg k.cast_nonneg hu
      have hsmall : 2 * (k * u) * u ≤ 1 * u := mul_le_mul_of_nonneg_right (by linarith) hu
      calc (1 + u) ^ (k + 1) = (1 + u) ^ k * (1 + u) := pow_succ _ _
        _ ≤ (1 + 2 * (k * u)) * (1 + u) :=
          mul_le_mul_of_nonneg_right (ih (by linarith)) (by linarith)
        _ ≤ 1 + (2 * (k * u) + 2 * u) := by linarith

end Binary

/-! ## Complex numbers -/

namespace Complex

/-- The complex number that two doubles stand for. -/
noncomputable def value (z : Complex Float) : ℂ := z.exact.toC

@[simp] theorem value_re (z : Complex Float) : z.value.re = toReal z.re := rfl
@[simp] theorem value_im (z : Complex Float) : z.value.im = toReal z.im := rfl

theorem value_real (x : Float) : (⟨x, 0⟩ : Complex Float).value = (toReal x : ℂ) := by
  rw [value, toC_eq_iff]
  simp only [exact, toReal_zero, Complex.ofReal_re, Complex.ofReal_im, and_self]

/-- The parts of `z` are finite, and `z` is at most `e` away from `c`. -/
structure Near (z : Complex Float) (c : ℂ) (e : ℝ) : Prop where
  isFinite : z.isFinite = true
  error_le : ‖z.value - c‖ ≤ e

section Near

variable {z w : Complex Float} {x : Float} {c : ℂ} {e e' : ℝ}

theorem Near.mono (h : z.Near c e) (he : e ≤ e') : z.Near c e' := ⟨h.isFinite, h.error_le.trans he⟩

theorem Near.norm_le (h : z.Near c e) : ‖z.value‖ ≤ ‖c‖ + e := by
  linarith [norm_sub_norm_le z.value c, h.error_le]

theorem near_of_parts (hre : Binary.Near z.re c.re e) (him : Binary.Near z.im c.im e) :
    z.Near c (2 * e) := by
  refine ⟨isFinite_iff.2 ⟨hre.isFinite, him.isFinite⟩, ?_⟩
  have := Complex.norm_le_abs_re_add_abs_im (z.value - c)
  have := hre.error_le
  have := him.error_le
  simp only [Complex.sub_re, Complex.sub_im, value_re, value_im] at *
  linarith

theorem value_conj (hz : z.isFinite = true) : z.conj.value = star z.value := by
  exact toC_eq_iff.2 ⟨rfl, (neg_spec (isFinite_iff.1 hz).2).2⟩

theorem conj_isFinite (hz : z.isFinite = true) : z.conj.isFinite = true :=
  isFinite_iff.2 ⟨(isFinite_iff.1 hz).1, (neg_spec (isFinite_iff.1 hz).2).1⟩

theorem norm_value_le {b : ℝ} (h : z.IsWithin b) : ‖z.value‖ ≤ 2 * b := by
  have := Complex.norm_le_abs_re_add_abs_im z.value
  have := h.re.abs_le
  have := h.im.abs_le
  simp only [value_re, value_im] at *
  linarith

/-- The products that go into one part of a product. -/
theorem abs_mul_add_abs_mul_le (a b c d : ℝ) :
    |a * c| + |b * d| ≤ √(a ^ 2 + b ^ 2) * √(c ^ 2 + d ^ 2) := by
  rw [← Real.sqrt_mul (by positivity)]
  refine Real.le_sqrt_of_sq_le ?_
  rw [abs_mul, abs_mul, ← sq_abs a, ← sq_abs b, ← sq_abs c, ← sq_abs d]
  linarith [sq_nonneg (|a| * |d| - |b| * |c|)]

theorem norm_value (z : Complex Float) : ‖z.value‖ = √(toReal z.re ^ 2 + toReal z.im ^ 2) :=
  norm_toC_exact z

/-- Parts that are one rounding each, of numbers that are not larger than `c`. -/
theorem near_of_rounds {b : ℝ} (hre : Rounds c.re z.re) (him : Rounds c.im z.im) (hc : ‖c‖ ≤ b)
    (hsize : b < safeBound) : z.Near c (2 * roundoff * b + 2 * underflow) := by
  have hpart {r : ℝ} (hr : |r| ≤ ‖c‖) {y : Float} (hy : Rounds r y) :
      Binary.Near y r (roundoff * b + underflow) := by
    have hrb := hr.trans hc
    refine (hy.near (hrb.trans_lt hsize)).mono ?_
    linarith [mul_le_mul_of_nonneg_left hrb roundoff_pos.le]
  refine (near_of_parts (hpart (Complex.abs_re_le_norm c) hre)
    (hpart (Complex.abs_im_le_norm c) him)).mono ?_
  linarith

theorem add_near (hz : z.isFinite = true) (hw : w.isFinite = true)
    (hsize : ‖z.value + w.value‖ < safeBound) :
    (z + w).Near (z.value + w.value) (2 * roundoff * ‖z.value + w.value‖ + 2 * underflow) := by
  obtain ⟨hzre, hzim⟩ := isFinite_iff.1 hz
  obtain ⟨hwre, hwim⟩ := isFinite_iff.1 hw
  exact near_of_rounds (rounds_add hzre hwre) (rounds_add hzim hwim) le_rfl hsize

theorem sub_near (hz : z.isFinite = true) (hw : w.isFinite = true)
    (hsize : ‖z.value - w.value‖ < safeBound) :
    (z - w).Near (z.value - w.value) (2 * roundoff * ‖z.value - w.value‖ + 2 * underflow) := by
  obtain ⟨hzre, hzim⟩ := isFinite_iff.1 hz
  obtain ⟨hwre, hwim⟩ := isFinite_iff.1 hw
  exact near_of_rounds (rounds_sub hzre hwre) (rounds_sub hzim hwim) le_rfl hsize

theorem scale_near (hz : z.isFinite = true) (hx : x.isFinite = true)
    (hsize : ‖z.value‖ * |toReal x| < safeBound) :
    (z.scale x).Near (z.value * toReal x)
      (2 * roundoff * (‖z.value‖ * |toReal x|) + 2 * underflow) := by
  obtain ⟨hzre, hzim⟩ := isFinite_iff.1 hz
  have hre := rounds_mul hzre hx
  have him := rounds_mul hzim hx
  refine near_of_rounds ?_ ?_ (norm_mul_le_of_le le_rfl (by simp)) hsize
  · rwa [Complex.re_mul_ofReal]
  · rwa [Complex.im_mul_ofReal]

theorem mul_near (hz : z.isFinite = true) (hw : w.isFinite = true)
    (hsize : 2 * (‖z.value‖ * ‖w.value‖) + 1 < safeBound) :
    (z * w).Near (z.value * w.value)
      (6 * roundoff * (‖z.value‖ * ‖w.value‖) + 8 * underflow) := by
  obtain ⟨hzre, hzim⟩ := isFinite_iff.1 hz
  obtain ⟨hwre, hwim⟩ := isFinite_iff.1 hw
  have hnonneg : 0 ≤ ‖z.value‖ * ‖w.value‖ := by positivity
  have hfirst := abs_mul_add_abs_mul_le (toReal z.re) (toReal z.im) (toReal w.re) (toReal w.im)
  have hsecond := abs_mul_add_abs_mul_le (toReal z.re) (toReal z.im) (toReal w.im) (toReal w.re)
  rw [add_comm (toReal w.im ^ 2)] at hsecond
  rw [← norm_value, ← norm_value] at hfirst hsecond
  have hproduct {x y : Float} (hx : x.isFinite = true) (hy : y.isFinite = true)
      (hxy : |toReal x * toReal y| ≤ ‖z.value‖ * ‖w.value‖) :
      Binary.Near (x * y) (toReal x * toReal y) (roundoff * |toReal x * toReal y| + underflow) :=
    (rounds_mul hx hy).near (by linarith)
  have hac := hproduct hzre hwre (by linarith [abs_nonneg (toReal z.im * toReal w.im)])
  have hbd := hproduct hzim hwim (by linarith [abs_nonneg (toReal z.re * toReal w.re)])
  have had := hproduct hzre hwim (by linarith [abs_nonneg (toReal z.im * toReal w.re)])
  have hbc := hproduct hzim hwre (by linarith [abs_nonneg (toReal z.re * toReal w.im)])
  have hre : Binary.Near (z * w).re (z.value * w.value).re
      (3 * roundoff * (‖z.value‖ * ‖w.value‖) + 4 * underflow) := by
    have hneg := hbd.neg
    have hround := rounds_sub hac.isFinite hbd.isFinite
    rw [← abs_neg (toReal z.im * toReal w.im)] at hneg hfirst
    rw [sub_eq_add_neg, ← (neg_spec hbd.isFinite).2] at hround
    rw [Complex.mul_re, sub_eq_add_neg]
    exact hac.sum hneg hround hfirst hsize
  have him : Binary.Near (z * w).im (z.value * w.value).im
      (3 * roundoff * (‖z.value‖ * ‖w.value‖) + 4 * underflow) :=
    had.sum hbc (rounds_add had.isFinite hbc.isFinite) hsecond hsize
  exact (near_of_parts hre him).mono (by linarith)

/-- A multiple that is subtracted. -/
theorem sub_mul_near {w d c : Complex Float} (hw : w.isFinite = true) (hd : d.isFinite = true)
    (hc : c.isFinite = true) (hsize : ‖w.value‖ + 2 * (‖d.value‖ * ‖c.value‖) + 1 < safeBound) :
    (w - d * c).Near (w.value - d.value * c.value)
      (2 * roundoff * ‖w.value‖ + 10 * roundoff * (‖d.value‖ * ‖c.value‖) + 12 * underflow) := by
  have hu := roundoff_pos
  have hη := underflow_pos
  have hη' := underflow_le
  have hunit : 16 * roundoff ≤ 1 := by
    rw [roundoff_eq]
    norm_num
  have hdc : 0 ≤ ‖d.value‖ * ‖c.value‖ := by positivity
  have hmul := mul_near hd hc (by linarith [norm_nonneg w.value])
  have hnorm : ‖(d * c).value‖ ≤ 2 * (‖d.value‖ * ‖c.value‖) + 8 * underflow := by
    have := hmul.norm_le
    rw [norm_mul] at this
    nlinarith
  have hdiff := norm_sub_le w.value (d * c).value
  have hsub := sub_near hw hmul.isFinite (by linarith)
  refine ⟨hsub.isFinite, ?_⟩
  have hsplit : (w - d * c).value - (w.value - d.value * c.value)
      = (w - d * c).value - (w.value - (d * c).value)
        - ((d * c).value - d.value * c.value) := by ring
  have hrounded : 2 * roundoff * ‖w.value - (d * c).value‖
      ≤ 2 * roundoff * (‖w.value‖ + (2 * (‖d.value‖ * ‖c.value‖) + 8 * underflow)) :=
    mul_le_mul_of_nonneg_left (by linarith) (by linarith)
  rw [hsplit]
  have := norm_sub_le ((w - d * c).value - (w.value - (d * c).value))
    ((d * c).value - d.value * c.value)
  have := mul_le_mul_of_nonneg_right hunit hη.le
  linarith [hsub.error_le, hmul.error_le]

theorem magnitudeSq_near (hz : z.isFinite = true) (hsize : 2 * ‖z.value‖ ^ 2 + 1 < safeBound) :
    Binary.Near z.magnitudeSq (‖z.value‖ ^ 2) (3 * roundoff * ‖z.value‖ ^ 2 + 4 * underflow) := by
  obtain ⟨hre, him⟩ := isFinite_iff.1 hz
  have hsq : ‖z.value‖ ^ 2 = toReal z.re * toReal z.re + toReal z.im * toReal z.im := by
    rw [norm_value, Real.sq_sqrt (by positivity)]
    ring
  have hsum : |toReal z.re * toReal z.re| + |toReal z.im * toReal z.im| ≤ ‖z.value‖ ^ 2 := by
    rw [abs_mul_self, abs_mul_self, hsq]
  have hre' := (rounds_mul hre hre).near
    (by linarith [abs_nonneg (toReal z.im * toReal z.im), sq_nonneg ‖z.value‖])
  have him' := (rounds_mul him him).near
    (by linarith [abs_nonneg (toReal z.re * toReal z.re), sq_nonneg ‖z.value‖])
  rw [hsq] at hsum hsize ⊢
  exact hre'.sum him' (rounds_add hre'.isFinite him'.isFinite) hsum hsize

end Near

end Complex

/-! ## Sums -/

/-- A sum from the left, where every addition is off by a little. -/
theorem foldl_error_le {α E V : Type} [Add E] [SeminormedAddCommGroup V] {val : E → V}
    {good : E → Prop} {u η cap : ℝ} (hu : 0 ≤ u) (hη : 0 ≤ η)
    (hadd : ∀ x y, good x → good y → ‖val x‖ + ‖val y‖ < cap →
      good (x + y) ∧ ‖val (x + y) - (val x + val y)‖ ≤ u * ‖val x + val y‖ + η)
    {xs : List α} {f : α → E} {z : E} {a : ℝ} (hz : good z) (hf : ∀ x ∈ xs, good (f x))
    (ha : ‖val z‖ + (xs.map fun x => ‖val (f x)‖).sum ≤ a)
    (hsize : (1 + u) ^ xs.length * (a + xs.length * η) < cap) :
    good (xs.foldl (fun acc x => acc + f x) z) ∧
      ‖val (xs.foldl (fun acc x => acc + f x) z) - (val z + (xs.map fun x => val (f x)).sum)‖
        ≤ (1 + u) ^ xs.length * (a + xs.length * η) - a := by
  induction xs generalizing z a with
  | nil => exact ⟨hz, by simp⟩
  | cons x xs ih =>
      have hrest : 0 ≤ (xs.map fun x => ‖val (f x)‖).sum := List.sum_nonneg fun r hr => by
        obtain ⟨y, -, rfl⟩ := List.mem_map.1 hr
        exact norm_nonneg _
      rw [List.map_cons, List.sum_cons] at ha ⊢
      rw [List.length_cons, Nat.cast_succ] at hsize ⊢
      set c := (1 + u) ^ xs.length with hc
      have hc1 : 1 ≤ c := one_le_pow₀ (by linarith)
      -- what is left is a sum of one term less, of a size that the first addition has changed
      set b := (1 + u) * a + η with hb
      have ha0 : 0 ≤ a := le_trans (by positivity) ha
      have hgrown : c * (b + xs.length * η)
          ≤ (1 + u) ^ (xs.length + 1) * (a + (xs.length + 1) * η) := by
        rw [pow_succ, mul_assoc]
        refine mul_le_mul_of_nonneg_left ?_ (by linarith)
        have : 0 ≤ u * ((xs.length + 1) * η) := by positivity
        rw [hb]
        linarith
      have hlarge : a ≤ (1 + u) ^ (xs.length + 1) * (a + (xs.length + 1) * η) :=
        calc a ≤ 1 * (a + (xs.length + 1) * η) := by
              have : 0 ≤ (xs.length + 1) * η := by positivity
              linarith
          _ ≤ _ := mul_le_mul_of_nonneg_right (one_le_pow₀ (by linarith)) (by positivity)
      obtain ⟨hgood, herror⟩ := hadd z (f x) hz (hf x List.mem_cons_self) (by linarith)
      have hfirst : ‖val (z + f x) - (val z + val (f x))‖ ≤ u * a + η := by
        have hle : u * ‖val z + val (f x)‖ ≤ u * a :=
          mul_le_mul_of_nonneg_left ((norm_add_le _ _).trans (by linarith)) hu
        linarith
      have hsum : ‖val (z + f x)‖ + (xs.map fun x => ‖val (f x)‖).sum ≤ b := by
        have := norm_sub_norm_le (val (z + f x)) (val z + val (f x))
        have := norm_add_le (val z) (val (f x))
        linarith
      obtain ⟨hgood', herror'⟩ := ih hgood (fun y hy => hf y (List.mem_cons_of_mem x hy)) hsum
        (hgrown.trans_lt hsize)
      refine ⟨hgood', ?_⟩
      rw [List.foldl_cons]
      have hsplit (r t : V) : r - (val z + (val (f x) + t))
          = r - (val (z + f x) + t) + (val (z + f x) - (val z + val (f x))) := by abel
      rw [hsplit]
      linarith [norm_add_le_of_le herror' hfirst]

/-- The same with numbered terms, if there are not too many. -/
theorem foldl_range_near {E V : Type} [Add E] [SeminormedAddCommGroup V] {val : E → V}
    {good : E → Prop} {u η cap : ℝ} (hu : 0 ≤ u) (hη : 0 ≤ η)
    (hadd : ∀ x y, good x → good y → ‖val x‖ + ‖val y‖ < cap →
      good (x + y) ∧ ‖val (x + y) - (val x + val y)‖ ≤ u * ‖val x + val y‖ + η)
    {k : ℕ} {f : ℕ → E} {z : E} {a : ℝ} (hk : 2 * (k * u) ≤ 1) (hz : good z)
    (hf : ∀ i < k, good (f i)) (ha : ‖val z‖ + ∑ i ∈ Finset.range k, ‖val (f i)‖ ≤ a)
    (hsize : 2 * (a + k * η) < cap) :
    good ((List.range k).foldl (fun acc i => acc + f i) z) ∧
      ‖val ((List.range k).foldl (fun acc i => acc + f i) z)
          - (val z + ∑ i ∈ Finset.range k, val (f i))‖ ≤ 2 * k * (u * a + η) := by
  have hgrowth := one_add_pow_le hu hk
  have ha0 : 0 ≤ a := le_trans (by positivity) ha
  have hsum : 0 ≤ a + k * η := by positivity
  have hlength : (List.range k).length = k := List.length_range
  have hnorms : ‖val z‖ + ((List.range k).map fun i => ‖val (f i)‖).sum ≤ a := ha
  obtain ⟨hgood, herror⟩ := foldl_error_le hu hη hadd hz
    (fun i hi => hf i (List.mem_range.1 hi)) hnorms (by
      rw [hlength]
      nlinarith)
  refine ⟨hgood, herror.trans ?_⟩
  rw [hlength]
  have : 0 ≤ k * η := mul_nonneg k.cast_nonneg hη
  nlinarith [mul_le_mul_of_nonneg_right hgrowth hsum]

/-- A sum of doubles. -/
theorem Binary.sumOver_near {k : ℕ} {f : ℕ → Float} {a : ℝ} (hk : 2 * (k * roundoff) ≤ 1)
    (hf : ∀ i < k, (f i).isFinite = true) (ha : ∑ i ∈ Finset.range k, |toReal (f i)| ≤ a)
    (hsize : 2 * (a + k * underflow) < safeBound) :
    Near (Arith.sumOver (List.range k) f) (∑ i ∈ Finset.range k, toReal (f i))
      (2 * k * (roundoff * a + underflow)) := by
  have hstart : ‖toReal 0‖ + ∑ i ∈ Finset.range k, ‖toReal (f i)‖ ≤ a := by
    rw [toReal_zero, norm_zero, zero_add]
    exact ha
  have hadd : ∀ x y : Float, x.isFinite = true → y.isFinite = true →
      ‖toReal x‖ + ‖toReal y‖ < safeBound → (x + y).isFinite = true ∧
        ‖toReal (x + y) - (toReal x + toReal y)‖
          ≤ roundoff * ‖toReal x + toReal y‖ + underflow := by
    intro x y hx hy hxy
    have hnear := (rounds_add hx hy).near ((abs_add_le _ _).trans_lt hxy)
    exact ⟨hnear.isFinite, hnear.error_le⟩
  obtain ⟨hfinite, herror⟩ := foldl_range_near roundoff_pos.le underflow_pos.le hadd hk
    isFinite_zero hf hstart hsize
  rw [toReal_zero, zero_add] at herror
  exact ⟨hfinite, herror⟩

end DenseNumeric
