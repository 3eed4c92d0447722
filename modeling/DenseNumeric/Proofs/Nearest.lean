import Mathlib
import DenseNumeric.Proofs.Exact

/-!
# Nearest numbers

The numbers of a binary format, with no bound above, and what it means for one
of them to be nearest to a real number. Which of two nearest numbers is taken
does not matter here: every bound on a rounded result comes from comparing it
with one number that was chosen for the purpose. Such a number bounds all
results on its side of it, and a result is no further away than the number is.
-/

namespace DenseNumeric.Binary

open Float.Model (Format)

/-! ## Numbers -/

/-- Numbers with a significand that fits the format, and an exponent that is
not too small for it. -/
def IsNumber (fmt : Format) (x : ℝ) : Prop :=
  ∃ m e : ℤ, |m| < 2 ^ fmt.mantissaBits ∧ fmt.minExponent ≤ e ∧ x = m * ((2 : ℕ) : ℝ) ^ e

section Numbers

variable {fmt : Format} {x y : ℝ}

theorem two_le_mantissaBits (fmt : Format) : 2 ≤ fmt.mantissaBits := by
  have := fmt.hm
  simp only [Format.mantissaBits]
  omega

theorem isNumber_iff : IsNumber fmt x ↔
    ∃ m e : ℤ, |m| < 2 ^ fmt.mantissaBits ∧ fmt.minExponent ≤ e ∧ x = m * 2 ^ e := Iff.rfl

theorem isNumber_zero (fmt : Format) : IsNumber fmt 0 :=
  ⟨0, fmt.minExponent, by simp, le_rfl, by simp⟩

theorem IsNumber.neg (h : IsNumber fmt x) : IsNumber fmt (-x) := by
  obtain ⟨m, e, hm, he, rfl⟩ := isNumber_iff.1 h
  exact ⟨-m, e, by rwa [abs_neg], he, by push_cast; ring⟩

theorem IsNumber.abs (h : IsNumber fmt x) : IsNumber fmt |x| := by
  rcases abs_choice x with hx | hx <;> rw [hx]
  exacts [h, h.neg]

theorem IsNumber.mul_two (h : IsNumber fmt x) : IsNumber fmt (2 * x) := by
  obtain ⟨m, e, hm, he, rfl⟩ := isNumber_iff.1 h
  refine isNumber_iff.2 ⟨m, e + 1, hm, by omega, ?_⟩
  rw [zpow_add_one₀ two_ne_zero]
  ring

theorem isNumber_two_zpow {e : ℤ} (he : fmt.minExponent ≤ e) : IsNumber fmt (2 ^ e) := by
  refine isNumber_iff.2 ⟨1, e, ?_, he, by simp⟩
  rw [abs_one]
  exact one_lt_pow₀ one_lt_two (by have := two_le_mantissaBits fmt; omega)

theorem minExponent_nonpos (hfmt : 2 ≤ fmt.exponentBits) : fmt.minExponent ≤ 0 := by
  have hbits := two_le_mantissaBits fmt
  have hpow : (2 : ℤ) ^ 1 ≤ 2 ^ (fmt.exponentBits - 1) :=
    pow_le_pow_right₀ one_le_two (by omega)
  simp only [Format.minExponent]
  omega

end Numbers

/-! ## Nearest numbers -/

/-- `y` is a number, and no number is nearer to `x`. -/
structure IsNearest (fmt : Format) (x y : ℝ) : Prop where
  isNumber : IsNumber fmt y
  le : ∀ z, IsNumber fmt z → |x - y| ≤ |x - z|

namespace IsNearest

variable {fmt : Format} {x y z : ℝ}

theorem self (h : IsNumber fmt x) : IsNearest fmt x x :=
  ⟨h, fun z _ => by rw [sub_self, abs_zero]; exact abs_nonneg _⟩

theorem eq_of_isNumber (h : IsNearest fmt x y) (hx : IsNumber fmt x) : y = x := by
  have := h.le x hx
  rw [sub_self, abs_zero] at this
  linarith [sub_eq_zero.1 (abs_nonpos_iff.1 this)]

theorem neg (h : IsNearest fmt x y) : IsNearest fmt (-x) (-y) := by
  refine ⟨h.isNumber.neg, fun z hz => ?_⟩
  have := h.le (-z) hz.neg
  rwa [neg_sub_neg, abs_sub_comm, ← abs_neg (-x - z), neg_sub, sub_neg_eq_add, add_comm z x,
    ← sub_neg_eq_add]

/-- A number at or above `x` is at or above what `x` is rounded to. -/
theorem le_of_le (h : IsNearest fmt x y) (hz : IsNumber fmt z) (hxz : x ≤ z) : y ≤ z := by
  by_contra! hlt
  have := h.le z hz
  rw [abs_of_nonpos (by linarith), abs_of_nonpos (by linarith)] at this
  linarith

theorem ge_of_ge (h : IsNearest fmt x y) (hz : IsNumber fmt z) (hzx : z ≤ x) : z ≤ y := by
  have := h.neg.le_of_le hz.neg (neg_le_neg hzx)
  linarith

/-- Rounding keeps the order of numbers. -/
theorem le_of_lt {x' y' : ℝ} (h : IsNearest fmt x y) (h' : IsNearest fmt x' y') (hx : x < x') :
    y ≤ y' := by
  by_contra! hlt
  have hle := sq_le_sq.2 (h.le y' h'.isNumber)
  have hle' := sq_le_sq.2 (h'.le y h.isNumber)
  have hcross := mul_pos (sub_pos.2 hlt) (sub_pos.2 hx)
  linarith

theorem abs_le_of_le (h : IsNearest fmt x y) (hz : IsNumber fmt z) (hxz : |x| ≤ z) : |y| ≤ z :=
  abs_le.2 ⟨h.ge_of_ge hz.neg (abs_le.1 hxz).1, h.le_of_le hz (abs_le.1 hxz).2⟩

theorem nonneg (h : IsNearest fmt x y) (hx : 0 ≤ x) : 0 ≤ y := h.ge_of_ge (isNumber_zero fmt) hx

/-- Rounding is no further off than a number that is at hand. -/
theorem abs_le_add (h : IsNearest fmt x y) (hz : IsNumber fmt z) : |y| ≤ |x| + |x - z| := by
  have := h.le z hz
  have := abs_sub_abs_le_abs_sub y x
  rw [abs_sub_comm y x] at this
  linarith

theorem abs_le_two_mul (h : IsNearest fmt x y) : |y| ≤ 2 * |x| := by
  have := h.abs_le_add (isNumber_zero fmt)
  rw [sub_zero] at this
  linarith

/-- Rounding down loses less than half, as there is a power of two in between. -/
theorem half_lt (h : IsNearest fmt x y) (hx : 2 ^ fmt.minExponent ≤ x) : x / 2 < y := by
  have hpos : 0 < x := (zpow_pos two_pos _).trans_le hx
  obtain ⟨e, hle, hlt⟩ := exists_mem_Ico_zpow hpos one_lt_two
  have he : fmt.minExponent ≤ e := by
    have := (zpow_lt_zpow_iff_right₀ one_lt_two).1 (hx.trans_lt hlt)
    omega
  have hy := h.ge_of_ge (isNumber_two_zpow he) hle
  rw [zpow_add_one₀ two_ne_zero] at hlt
  linarith

end IsNearest

/-! ## Sums and lengths -/

section Bounds

variable {fmt : Format} {x y z : ℝ}

/-- A rounded sum of two numbers. -/
theorem IsNearest.abs_sum_le (h : IsNearest fmt (x + y) z) (hx : IsNumber fmt x) :
    |z| ≤ |x| + 2 * |y| := by
  have := h.abs_le_add hx
  rw [add_sub_cancel_left] at this
  linarith [abs_add_le x y]

/-- A rounded sum of two numbers that are not negative, by at most a third too
large: it is at most twice the larger one. -/
theorem IsNearest.add_le (h : IsNearest fmt (x + y) z) (hx : IsNumber fmt x)
    (hy : IsNumber fmt y) (hx0 : 0 ≤ x) (hy0 : 0 ≤ y) : z ≤ 4 / 3 * (x + y) := by
  wlog hxy : y ≤ x generalizing x y
  · rw [add_comm x y]
    exact this (add_comm x y ▸ h) hy hx hy0 hx0 (le_of_not_ge hxy)
  have hdouble : z ≤ 2 * x := h.le_of_le hx.mul_two (by linarith)
  have hsum := h.abs_sum_le hx
  rw [abs_of_nonneg hx0, abs_of_nonneg hy0] at hsum
  linarith [le_abs_self z]

/-- A rounded hypotenuse. -/
theorem IsNearest.sq_hypot_le (h : IsNearest fmt √(x ^ 2 + y ^ 2) z) (hx : IsNumber fmt x)
    (hx0 : 0 ≤ x) : z ^ 2 ≤ x ^ 2 + 4 * y ^ 2 := by
  set r := √(x ^ 2 + y ^ 2) with hr
  have hsq : r ^ 2 = x ^ 2 + y ^ 2 := Real.sq_sqrt (by positivity)
  have hxr : x ≤ r := Real.le_sqrt_of_sq_le (by nlinarith [sq_nonneg y])
  have hr0 : 0 ≤ r := Real.sqrt_nonneg _
  have hz := h.abs_le_add hx
  rw [abs_of_nonneg (sub_nonneg.2 hxr), abs_of_nonneg hr0] at hz
  calc z ^ 2 = |z| ^ 2 := (sq_abs z).symm
    _ ≤ (2 * r - x) ^ 2 := pow_le_pow_left₀ (abs_nonneg z) (by linarith) 2
    _ ≤ x ^ 2 + 4 * y ^ 2 := by nlinarith

end Bounds

end DenseNumeric.Binary
