import Mathlib
import DenseNumeric.Proofs.Nearest

/-!
# Scaled divisors

A complex quotient divides its divisor by the taxicab length first. The numbers
on the way from there to the denominator are rounded one by one, in any format
with some digits and an exponent range to match. As long as exponents have no
upper bound, two things hold: the sum of the squares of the scaled parts is not
above one, though the parts may sum to more than one, and the denominator is
neither above the length nor zero. So nothing on the way is too large for the
format if the length is not.

Both are decided next to one. Let `t` be what the larger scaled part lacks to
one, which is a multiple of the unit there. The other part is at most two units
above `t`. So its square is at most `t`, and the square of the larger part is
at most the part itself.
-/

namespace DenseNumeric.Binary

open Float.Model (Format)

variable {fmt : Format} {x y z s c d a b q r : ℝ}

/-! ## Multiples of a unit -/

/-- A significand may be as large as the first power of two that does not fit. -/
theorem isNumber_intCast_mul {n e : ℤ} (hn : |n| ≤ 2 ^ fmt.mantissaBits)
    (he : fmt.minExponent ≤ e) : IsNumber fmt (n * 2 ^ e) := by
  rcases hn.lt_or_eq with hlt | heq
  · exact isNumber_iff.2 ⟨n, e, hlt, he, rfl⟩
  · have habs : IsNumber fmt (|(n : ℝ)| * 2 ^ e) := by
      have hpow : IsNumber fmt (2 ^ (fmt.mantissaBits + e : ℤ)) := isNumber_two_zpow (by omega)
      rw [zpow_add₀ two_ne_zero, zpow_natCast] at hpow
      rwa [← Int.cast_abs, heq, Int.cast_pow, Int.cast_ofNat]
    rcases abs_choice (n : ℝ) with h | h
    · rwa [h] at habs
    · have hneg := habs.neg
      rwa [h, neg_mul, neg_neg] at hneg

theorem exists_intCast_mul {m e g : ℤ} (h : g ≤ e) : ∃ n : ℤ, (m * 2 ^ e : ℝ) = n * 2 ^ g := by
  refine ⟨m * 2 ^ (e - g).toNat, ?_⟩
  rw [Int.cast_mul, Int.cast_pow, Int.cast_ofNat, mul_assoc, ← zpow_natCast,
    ← zpow_add₀ two_ne_zero, Int.toNat_of_nonneg (by omega), sub_add_cancel]

/-- All numbers are multiples of the smallest one. -/
theorem IsNumber.exists_mul_minExponent (h : IsNumber fmt x) :
    ∃ n : ℤ, x = n * 2 ^ fmt.minExponent := by
  obtain ⟨m, e, -, he, rfl⟩ := isNumber_iff.1 h
  exact exists_intCast_mul he

/-- From a power of two on, numbers are multiples of its last place. -/
theorem IsNumber.exists_mul_lastPlace {k : ℤ} (h : IsNumber fmt x) (hk : 2 ^ k ≤ x) :
    ∃ n : ℤ, x = n * 2 ^ (k + 1 - fmt.mantissaBits) := by
  obtain ⟨m, e, hm, -, rfl⟩ := isNumber_iff.1 h
  refine exists_intCast_mul ?_
  have hlt : (2 : ℝ) ^ k < 2 ^ (fmt.mantissaBits + e : ℤ) := by
    rw [zpow_add₀ two_ne_zero, zpow_natCast]
    have hcast : (m : ℝ) < 2 ^ fmt.mantissaBits := by exact_mod_cast (le_abs_self m).trans_lt hm
    exact hk.trans_lt (mul_lt_mul_of_pos_right hcast (zpow_pos two_pos e))
  have := (zpow_lt_zpow_iff_right₀ one_lt_two).1 hlt
  omega

/-- Up to a power of two, rounding is off by half of the last place before it. -/
theorem IsNearest.abs_sub_le_half {k : ℤ} (h : IsNearest fmt x y) (hx : |x| ≤ 2 ^ (k + 1))
    (hk : fmt.minExponent ≤ k + 1 - fmt.mantissaBits) : |x - y| ≤ 2 ^ (k - fmt.mantissaBits) := by
  set unit : ℝ := 2 ^ (k + 1 - fmt.mantissaBits) with hunit
  have hpos : 0 < unit := zpow_pos two_pos _
  have hround : |x / unit - round (x / unit)| ≤ 1 / 2 := abs_sub_round _
  have hsize : |x / unit| ≤ 2 ^ fmt.mantissaBits := by
    rw [abs_div, abs_of_pos hpos, div_le_iff₀ hpos, hunit, ← zpow_natCast,
      ← zpow_add₀ two_ne_zero]
    rwa [add_sub_cancel]
  have hn : |round (x / unit)| ≤ 2 ^ fmt.mantissaBits := by
    have hlt : |((round (x / unit) : ℤ) : ℝ)| < 2 ^ fmt.mantissaBits + 1 := by
      have := abs_sub_abs_le_abs_sub ((round (x / unit) : ℤ) : ℝ) (x / unit)
      rw [abs_sub_comm] at this
      linarith
    exact Int.lt_add_one_iff.1 (by exact_mod_cast hlt)
  have hdiff : x - round (x / unit) * unit = (x / unit - round (x / unit)) * unit := by
    field_simp
  calc |x - y| ≤ |x - round (x / unit) * unit| := h.le _ (isNumber_intCast_mul hn hk)
    _ = |x / unit - round (x / unit)| * unit := by rw [hdiff, abs_mul, abs_of_pos hpos]
    _ ≤ 1 / 2 * unit := mul_le_mul_of_nonneg_right hround hpos.le
    _ = 2 ^ (k - fmt.mantissaBits) := by
      rw [hunit, add_sub_right_comm, zpow_add_one₀ two_ne_zero]
      ring

/-! ## Sums -/

/-- The distance of the numbers right below one. -/
noncomputable def unitBelowOne (fmt : Format) : ℝ := ((2 : ℕ) : ℝ) ^ (-fmt.mantissaBits : ℤ)

theorem unitBelowOne_eq (fmt : Format) : unitBelowOne fmt = 2 ^ (-fmt.mantissaBits : ℤ) := by
  rw [unitBelowOne, Nat.cast_ofNat]

theorem unitBelowOne_pos (fmt : Format) : 0 < unitBelowOne fmt := by
  rw [unitBelowOne_eq]
  exact zpow_pos two_pos _

/-- A sum loses at most half of its last place, and nothing if that is the
smallest number. -/
theorem IsNearest.add_le_of_isNumber (h : IsNearest fmt (x + y) s) (hx : IsNumber fmt x)
    (hy : IsNumber fmt y) (hx0 : 0 ≤ x) (hy0 : 0 ≤ y) : x + y ≤ s + unitBelowOne fmt * s := by
  have hs : 0 ≤ unitBelowOne fmt * s :=
    mul_nonneg (unitBelowOne_pos fmt).le (h.nonneg (add_nonneg hx0 hy0))
  rcases (add_nonneg hx0 hy0).eq_or_lt with hzero | hpos
  · rw [← hzero] at h
    rw [← hzero, h.eq_of_isNumber (isNumber_zero fmt), mul_zero, add_zero]
  obtain ⟨k, hlow, hhigh⟩ := exists_mem_Ico_zpow hpos one_lt_two
  rcases le_or_gt fmt.minExponent (k + 1 - fmt.mantissaBits) with hk | hk
  · have hhalf := h.abs_sub_le_half (by rw [abs_of_pos hpos]; exact hhigh.le) hk
    have hdigits := two_le_mantissaBits fmt
    have hlength : (2 : ℝ) ^ k ≤ s := h.ge_of_ge (isNumber_two_zpow (by omega)) hlow
    have hunit : (2 : ℝ) ^ (k - fmt.mantissaBits) = unitBelowOne fmt * 2 ^ k := by
      rw [unitBelowOne_eq, ← zpow_add₀ two_ne_zero, neg_add_eq_sub]
    rw [hunit] at hhalf
    linarith [le_abs_self (x + y - s), mul_le_mul_of_nonneg_left hlength (unitBelowOne_pos fmt).le]
  · obtain ⟨m, hm⟩ := hx.exists_mul_minExponent
    obtain ⟨n, hn⟩ := hy.exists_mul_minExponent
    have hsum : x + y = ((m + n : ℤ) : ℝ) * 2 ^ fmt.minExponent := by
      rw [hm, hn]
      push_cast
      ring
    have hexact : IsNumber fmt (x + y) := by
      rw [hsum]
      refine isNumber_intCast_mul ?_ le_rfl
      have hcast : |((m + n : ℤ) : ℝ)| * 2 ^ fmt.minExponent
          ≤ 2 ^ fmt.mantissaBits * 2 ^ fmt.minExponent := by
        rw [← abs_of_pos (zpow_pos (two_pos (α := ℝ)) fmt.minExponent), ← abs_mul, ← hsum,
          abs_of_pos hpos, abs_of_pos (zpow_pos two_pos _), ← zpow_natCast,
          ← zpow_add₀ two_ne_zero]
        exact hhigh.le.trans (zpow_le_zpow_right₀ one_le_two (by omega))
      exact_mod_cast le_of_mul_le_mul_right hcast (zpow_pos two_pos _)
    linarith [h.eq_of_isNumber hexact]

/-! ## Formats with numbers around one -/

/-- Some digits, and exponents for a few numbers that are smaller than the unit
below one. -/
structure IsWide (fmt : Format) : Prop where
  four_le : 4 ≤ fmt.mantissaBits
  lt_zero : fmt.minExponent + fmt.mantissaBits < 0

namespace IsWide

theorem isNumber_one (h : IsWide fmt) : IsNumber fmt 1 := by
  have := h.lt_zero
  have hone : IsNumber fmt (2 ^ (0 : ℤ)) := isNumber_two_zpow (by omega)
  rwa [zpow_zero] at hone

theorem isNumber_half (h : IsWide fmt) : IsNumber fmt (1 / 2) := by
  have := h.lt_zero
  have := h.four_le
  have hhalf : IsNumber fmt (2 ^ (-1 : ℤ)) := isNumber_two_zpow (by omega)
  rwa [zpow_neg_one, ← one_div] at hhalf

theorem isNumber_quarter (h : IsWide fmt) : IsNumber fmt (1 / 4) := by
  have := h.lt_zero
  have := h.four_le
  have hquarter : IsNumber fmt (2 ^ (-2 : ℤ)) := isNumber_two_zpow (by omega)
  norm_num at hquarter
  exact hquarter

theorem isNumber_half_unit (h : IsWide fmt) : IsNumber fmt (unitBelowOne fmt / 2) := by
  have := h.lt_zero
  have hunit : IsNumber fmt (2 ^ (-fmt.mantissaBits - 1 : ℤ)) := isNumber_two_zpow (by omega)
  rwa [zpow_sub_one₀ two_ne_zero, ← unitBelowOne_eq, ← div_eq_mul_inv] at hunit

theorem isNumber_mul_unit (h : IsWide fmt) {n : ℤ} (hn : |n * unitBelowOne fmt| ≤ 1) :
    IsNumber fmt (n * unitBelowOne fmt) := by
  have := h.lt_zero
  rw [unitBelowOne_eq]
  refine isNumber_intCast_mul ?_ (by omega)
  rw [abs_mul, abs_of_pos (unitBelowOne_pos fmt), unitBelowOne_eq, zpow_neg, zpow_natCast,
    ← div_eq_mul_inv, div_le_one₀ (by positivity)] at hn
  exact_mod_cast hn

theorem unitBelowOne_le (h : IsWide fmt) : unitBelowOne fmt ≤ 1 / 16 := by
  have := h.four_le
  rw [unitBelowOne_eq]
  calc (2 : ℝ) ^ (-fmt.mantissaBits : ℤ) ≤ 2 ^ (-4 : ℤ) :=
        zpow_le_zpow_right₀ one_le_two (by omega)
    _ = 1 / 16 := by norm_num

end IsWide

theorem one_eq_mul_unit (fmt : Format) :
    (1 : ℝ) = ((2 ^ fmt.mantissaBits : ℤ) : ℝ) * unitBelowOne fmt := by
  rw [unitBelowOne_eq, zpow_neg, zpow_natCast, Int.cast_pow, Int.cast_ofNat,
    mul_inv_cancel₀ (by positivity)]

/-- Above one, numbers are two units apart. -/
theorem IsNearest.le_one_of_le_add (h : IsNearest fmt x y) (hfmt : IsWide fmt)
    (hx : x ≤ 1 + unitBelowOne fmt / 2) : y ≤ 1 := by
  have hunit := unitBelowOne_pos fmt
  by_contra! hlt
  have hx1 : 1 < x := by
    by_contra! hx1
    exact hlt.not_ge (h.le_of_le hfmt.isNumber_one hx1)
  have hgap : 1 + 2 * unitBelowOne fmt ≤ y := by
    obtain ⟨m, hm⟩ := h.isNumber.exists_mul_lastPlace (k := 0) (by rw [zpow_zero]; exact hlt.le)
    have hm : y = ((2 * m : ℤ) : ℝ) * unitBelowOne fmt := by
      rw [hm, zero_add, sub_eq_neg_add, zpow_add_one₀ two_ne_zero, ← unitBelowOne_eq]
      push_cast
      ring
    have heven : (2 ^ fmt.mantissaBits : ℤ) = 2 * 2 ^ (fmt.mantissaBits - 1) := by
      rw [← pow_succ', Nat.sub_add_cancel (by have := hfmt.four_le; omega)]
    have hlt : (2 ^ fmt.mantissaBits : ℤ) < 2 * m := by
      rw [hm, one_eq_mul_unit fmt] at hlt
      exact_mod_cast lt_of_mul_lt_mul_right hlt hunit.le
    have hle : ((2 ^ fmt.mantissaBits + 2 : ℤ) : ℝ) ≤ ((2 * m : ℤ) : ℝ) := by
      exact_mod_cast (by omega : (2 ^ fmt.mantissaBits + 2 : ℤ) ≤ 2 * m)
    have := mul_le_mul_of_nonneg_right hle hunit.le
    rw [Int.cast_add, add_mul, ← one_eq_mul_unit, ← hm] at this
    exact_mod_cast this
  have hnear := h.le 1 hfmt.isNumber_one
  rw [abs_of_nonpos (by linarith), abs_of_nonneg (by linarith)] at hnear
  linarith

theorem IsNearest.abs (h : IsNearest fmt x y) : IsNearest fmt |x| |y| := by
  rcases le_total 0 x with hx | hx
  · rwa [abs_of_nonneg hx, abs_of_nonneg (h.nonneg hx)]
  · have hy : 0 ≤ -y := h.neg.nonneg (neg_nonneg.2 hx)
    rw [abs_of_nonpos hx, abs_of_nonpos (neg_nonneg.1 hy)]
    exact h.neg

/-- Above half of the smallest number, nothing is rounded to zero. -/
theorem IsNearest.pos_of_half_lt (h : IsNearest fmt x y) (hx : 2 ^ fmt.minExponent / 2 < x) :
    0 < y := by
  have hsmallest : (0 : ℝ) < 2 ^ fmt.minExponent := zpow_pos two_pos _
  refine (h.nonneg (by linarith)).lt_of_ne fun hzero => ?_
  have hnear := h.le _ (isNumber_two_zpow le_rfl)
  rw [← hzero, sub_zero, abs_of_pos (by linarith)] at hnear
  rcases le_abs.1 hnear with hle | hle
  · linarith
  · linarith

/-! ## The denominator -/

/-- The numbers on the way to a denominator: for a divisor with parts of size
`x` and `y` its length `s`, the parts `c` and `d` of the scaled divisor, their
squares `a` and `b`, and the sum `q` of these. -/
structure IsScaling (fmt : Format) (x y s c d a b q : ℝ) : Prop where
  isNumber_left : IsNumber fmt x
  isNumber_right : IsNumber fmt y
  left_nonneg : 0 ≤ x
  right_nonneg : 0 ≤ y
  length_pos : 0 < s
  length : IsNearest fmt (x + y) s
  left : IsNearest fmt (x / s) c
  right : IsNearest fmt (y / s) d
  left_square : IsNearest fmt (c * c) a
  right_square : IsNearest fmt (d * d) b
  squares : IsNearest fmt (a + b) q

namespace IsScaling

theorem symm (h : IsScaling fmt x y s c d a b q) :
    IsScaling fmt y x s d c b a q where
  isNumber_left := h.isNumber_right
  isNumber_right := h.isNumber_left
  left_nonneg := h.right_nonneg
  right_nonneg := h.left_nonneg
  length_pos := h.length_pos
  length := add_comm x y ▸ h.length
  left := h.right
  right := h.left
  left_square := h.right_square
  right_square := h.left_square
  squares := add_comm a b ▸ h.squares

theorem left_mem (hfmt : IsWide fmt) (h : IsScaling fmt x y s c d a b q) :
    0 ≤ c ∧ c ≤ 1 := by
  have hle : x ≤ s := h.length.ge_of_ge h.isNumber_left (by linarith [h.right_nonneg])
  exact ⟨h.left.nonneg (div_nonneg h.left_nonneg h.length_pos.le),
    h.left.le_of_le hfmt.isNumber_one ((div_le_one₀ h.length_pos).2 hle)⟩

theorem left_square_mem (hfmt : IsWide fmt) (h : IsScaling fmt x y s c d a b q) :
    0 ≤ a ∧ a ≤ c := by
  obtain ⟨hc0, hc1⟩ := h.left_mem hfmt
  exact ⟨h.left_square.nonneg (mul_nonneg hc0 hc0),
    h.left_square.le_of_le h.left.isNumber (mul_le_of_le_one_left hc0 hc1)⟩

theorem half_le (hfmt : IsWide fmt) (h : IsScaling fmt x y s c d a b q) (hyx : y ≤ x) :
    1 / 2 ≤ c := by
  have hs : s ≤ 2 * x := h.length.le_of_le h.isNumber_left.mul_two (by linarith)
  refine h.left.ge_of_ge hfmt.isNumber_half ?_
  rw [le_div_iff₀ h.length_pos]
  linarith

/-- What the larger scaled part lacks to one is a multiple of the unit, and the
smaller part is at most two units more than that. -/
theorem lack_spec (hfmt : IsWide fmt) (h : IsScaling fmt x y s c d a b q) (hyx : y ≤ x) :
    ∃ n : ℤ, 1 - c = n * unitBelowOne fmt ∧ 0 ≤ n ∧ d ≤ 1 - c + 2 * unitBelowOne fmt := by
  have hunit := unitBelowOne_pos fmt
  have hunit' := hfmt.unitBelowOne_le
  obtain ⟨hc0, hc1⟩ := h.left_mem hfmt
  have hhalf := h.half_le hfmt hyx
  obtain ⟨m, hm⟩ := h.left.isNumber.exists_mul_lastPlace (k := -1) (by norm_num; linarith)
  have hm : c = m * unitBelowOne fmt := by
    rwa [neg_add_cancel, zero_sub, ← unitBelowOne_eq] at hm
  have hlack : 1 - c = ((2 ^ fmt.mantissaBits - m : ℤ) : ℝ) * unitBelowOne fmt := by
    rw [Int.cast_sub, sub_mul, ← one_eq_mul_unit, ← hm]
  refine ⟨_, hlack, ?_, ?_⟩
  · by_contra! hneg
    have : ((2 ^ fmt.mantissaBits - m : ℤ) : ℝ) < 0 := by exact_mod_cast hneg
    linarith [mul_neg_of_neg_of_pos this hunit]
  · have hnumber : IsNumber fmt (1 - c + 2 * unitBelowOne fmt) := by
      have hcast : 1 - c + 2 * unitBelowOne fmt
          = ((2 ^ fmt.mantissaBits - m + 2 : ℤ) : ℝ) * unitBelowOne fmt := by
        rw [hlack]
        push_cast
        ring
      rw [hcast]
      refine hfmt.isNumber_mul_unit ?_
      rw [← hcast, abs_of_nonneg (by linarith)]
      linarith
    refine h.right.le_of_le hnumber ?_
    have hround : |x / s - c| ≤ unitBelowOne fmt / 2 := by
      have hquotient : |x / s| ≤ 2 ^ (-1 + 1 : ℤ) := by
        rw [neg_add_cancel, zpow_zero, abs_of_nonneg (div_nonneg h.left_nonneg h.length_pos.le),
          div_le_one₀ h.length_pos]
        exact h.length.ge_of_ge h.isNumber_left (by linarith [h.right_nonneg])
      have hexponent := hfmt.lt_zero
      have := h.left.abs_sub_le_half hquotient (by omega)
      rw [← zero_sub (1 : ℤ)] at this
      rwa [sub_right_comm, zero_sub, zpow_sub_one₀ two_ne_zero, ← unitBelowOne_eq,
        ← div_eq_mul_inv] at this
    have hsum : (x + y) / s ≤ 1 + unitBelowOne fmt := by
      rw [div_le_iff₀ h.length_pos]
      have := h.length.add_le_of_isNumber h.isNumber_left h.isNumber_right h.left_nonneg
        h.right_nonneg
      linarith
    rw [add_div] at hsum
    linarith [neg_abs_le (x / s - c)]

/-- The squares are together at most one: the smaller one is lost beside one, or
the two lack something to one that the units do not make up for. -/
theorem squares_le_one_of_le (hfmt : IsWide fmt) (h : IsScaling fmt x y s c d a b q)
    (hyx : y ≤ x) : q ≤ 1 := by
  have hunit := unitBelowOne_pos fmt
  have hunit' := hfmt.unitBelowOne_le
  have hhalf := h.half_le hfmt hyx
  obtain ⟨hc0, hc1⟩ := h.left_mem hfmt
  have hd0 := (h.symm.left_mem hfmt).1
  have hac := (h.left_square_mem hfmt).2
  obtain ⟨n, hn, hn0, hd⟩ := h.lack_spec hfmt hyx
  rcases hn0.eq_or_lt with rfl | hn0
  · have hc : c = 1 := by
      rw [Int.cast_zero, zero_mul] at hn
      linarith
    refine h.squares.le_one_of_le_add hfmt ?_
    have hb : b ≤ unitBelowOne fmt / 2 := by
      refine h.right_square.le_of_le hfmt.isNumber_half_unit ?_
      rw [hc, sub_self, zero_add] at hd
      nlinarith
    linarith
  · have hone : unitBelowOne fmt ≤ 1 - c := by
      rw [hn]
      exact le_mul_of_one_le_left hunit.le (by exact_mod_cast hn0)
    have hlack : IsNumber fmt (1 - c) := by
      rw [hn]
      refine hfmt.isNumber_mul_unit ?_
      rw [← hn, abs_of_nonneg (by linarith)]
      linarith
    have hb : b ≤ 1 - c := by
      refine h.right_square.le_of_le hlack ?_
      have hsquare : d * d ≤ (1 - c + 2 * unitBelowOne fmt) * (1 - c + 2 * unitBelowOne fmt) :=
        mul_self_le_mul_self hd0 hd
      nlinarith
    exact h.squares.le_of_le hfmt.isNumber_one (by linarith)

theorem quarter_le_squares (hfmt : IsWide fmt) (h : IsScaling fmt x y s c d a b q)
    (hyx : y ≤ x) : 1 / 4 ≤ q := by
  have hhalf := h.half_le hfmt hyx
  have ha : 1 / 4 ≤ a := h.left_square.ge_of_ge hfmt.isNumber_quarter (by nlinarith)
  have hb := (h.symm.left_square_mem hfmt).1
  exact h.squares.ge_of_ge hfmt.isNumber_quarter (by linarith)

/-- The denominator does not vanish, though the squares may sum to a quarter
only: then there are two different parts, and so a length of three times the
smallest number at least. -/
theorem denominator_pos_of_le (hfmt : IsWide fmt) (h : IsScaling fmt x y s c d a b q)
    (hr : IsNearest fmt (q * s) r) (hyx : y ≤ x) : 0 < r := by
  have hb := (h.symm.left_square_mem hfmt).1
  rcases h.right_nonneg.eq_or_lt with rfl | hy
  · -- the larger part is the length
    have hs : s = x := h.length.eq_of_isNumber (by rw [add_zero]; exact h.isNumber_left) |>.trans
      (add_zero x)
    have hc : c = 1 := by
      have hleft := h.left
      rw [← hs, div_self h.length_pos.ne'] at hleft
      exact hleft.eq_of_isNumber hfmt.isNumber_one
    have ha : 1 ≤ a := h.left_square.ge_of_ge hfmt.isNumber_one (by rw [hc, mul_one])
    have hq : 1 ≤ q := h.squares.ge_of_ge hfmt.isNumber_one (by linarith)
    exact h.length_pos.trans_le
      (hr.ge_of_ge h.length.isNumber (le_mul_of_one_le_left h.length_pos.le hq))
  rcases hyx.eq_or_lt with heq | hlt
  · -- each part is half of the length
    have hs : s = 2 * x := by
      have hlength := h.length
      rw [heq, ← two_mul] at hlength
      exact hlength.eq_of_isNumber h.isNumber_left.mul_two
    have hquotient : x / s = 1 / 2 := by
      rw [hs]
      field_simp [(heq ▸ hy : 0 < x).ne']
    have hc : c = 1 / 2 := by
      have hleft := h.left
      rw [hquotient] at hleft
      exact hleft.eq_of_isNumber hfmt.isNumber_half
    have hd : d = 1 / 2 := by
      have hright := h.right
      rw [heq, hquotient] at hright
      exact hright.eq_of_isNumber hfmt.isNumber_half
    have ha : 1 / 4 ≤ a := h.left_square.ge_of_ge hfmt.isNumber_quarter (by rw [hc]; norm_num)
    have hb : 1 / 4 ≤ b := h.right_square.ge_of_ge hfmt.isNumber_quarter (by rw [hd]; norm_num)
    have hq : 1 / 2 ≤ q := h.squares.ge_of_ge hfmt.isNumber_half (by linarith)
    have hx : x ≤ r := by
      refine hr.ge_of_ge h.isNumber_left ?_
      calc x = 1 / 2 * s := by rw [hs]; ring
        _ ≤ q * s := mul_le_mul_of_nonneg_right hq h.length_pos.le
    linarith
  · have hsmallest : (0 : ℝ) < 2 ^ fmt.minExponent := zpow_pos two_pos _
    have hthree : 3 * 2 ^ fmt.minExponent ≤ s := by
      obtain ⟨m, hm⟩ := h.isNumber_left.exists_mul_minExponent
      obtain ⟨n, hn⟩ := h.isNumber_right.exists_mul_minExponent
      rw [hn] at hy
      rw [hm, hn] at hlt
      have hn0 : 0 < n := by exact_mod_cast pos_of_mul_pos_left hy hsmallest.le
      have hnm : n < m := by exact_mod_cast lt_of_mul_lt_mul_right hlt hsmallest.le
      have hnumber : IsNumber fmt (((3 : ℤ) : ℝ) * 2 ^ fmt.minExponent) := by
        refine isNumber_intCast_mul ?_ le_rfl
        calc |(3 : ℤ)| ≤ 2 ^ 4 := by norm_num
          _ ≤ 2 ^ fmt.mantissaBits := pow_le_pow_right₀ one_le_two hfmt.four_le
      refine h.length.ge_of_ge (by exact_mod_cast hnumber) ?_
      have hsum : (3 : ℝ) ≤ m + n := by exact_mod_cast (by omega : (3 : ℤ) ≤ m + n)
      rw [hm, hn, ← add_mul]
      exact mul_le_mul_of_nonneg_right hsum hsmallest.le
    have hproduct : 3 / 4 * 2 ^ fmt.minExponent ≤ q * s := by
      have := mul_le_mul (h.quarter_le_squares hfmt hyx) hthree (by positivity)
        ((by norm_num : (0 : ℝ) ≤ 1 / 4).trans (h.quarter_le_squares hfmt hyx))
      linarith
    refine hr.pos_of_half_lt ?_
    linarith

theorem squares_le_one (hfmt : IsWide fmt) (h : IsScaling fmt x y s c d a b q) : q ≤ 1 := by
  rcases le_total y x with hyx | hxy
  · exact h.squares_le_one_of_le hfmt hyx
  · exact h.symm.squares_le_one_of_le hfmt hxy

/-- The denominator is as useful as the length. -/
theorem denominator_mem (hfmt : IsWide fmt) (h : IsScaling fmt x y s c d a b q)
    (hr : IsNearest fmt (q * s) r) : 0 < r ∧ r ≤ s := by
  constructor
  · rcases le_total y x with hyx | hxy
    · exact h.denominator_pos_of_le hfmt hr hyx
    · exact h.symm.denominator_pos_of_le hfmt hr hxy
  · exact hr.le_of_le h.length.isNumber
      (mul_le_of_le_one_left h.length_pos.le (h.squares_le_one hfmt))

end IsScaling

end DenseNumeric.Binary
