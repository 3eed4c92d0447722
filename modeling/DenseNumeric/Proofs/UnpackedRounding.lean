import Mathlib
import DenseNumeric.Proofs.Nearest
import DenseNumeric.Proofs.Rounding

/-!
# What rounding an unpacked number gives

An unpacked number stands for a real one, `valueOf`. Digits that do not fit a
format are shifted out, and two bits keep what has to be known about them;
`Locates` says what they know. From this, rounding gives a number that is
nearest to the located one, in canonical form (`IsRounded`).
-/

namespace DenseNumeric.Binary

open Float.Model (Format UnpackedFloat totalExponent)
open Float.Model.UnpackedFloat hiding round

/-! ## Located numbers -/

/-- What a significand and its accuracy say about the number `x`: that it is
the significand, or which end of the unit above the significand is nearer. -/
def Locates (x : ℝ) (m : ℕ) : Accuracy → Prop
  | .exact => x = m
  | .inexact .lt => m < x ∧ x - m < m + 1 - x
  | .inexact .eq => x - m = m + 1 - x
  | .inexact .gt => m + 1 - x < x - m ∧ x < m + 1

theorem locates_ofMantissaAndAccuracy {x : ℝ} {m : ℕ} {acc : Accuracy} (h : Locates x m acc) :
    Locates x (ExtendedMantissa.ofMantissaAndAccuracy m acc).mantissa
      (ExtendedMantissa.ofMantissaAndAccuracy m acc).accuracy := by
  cases acc with
  | exact => exact h
  | inexact o => cases o <;> exact h

section Located

variable {x : ℝ} {em : ExtendedMantissa}

theorem Locates.le_lt (h : Locates x em.mantissa em.accuracy) :
    (em.mantissa : ℝ) ≤ x ∧ x < em.mantissa + 1 := by
  obtain ⟨m, r, s⟩ := em
  cases r <;> cases s <;> simp only [ExtendedMantissa.accuracy, Locates] at h ⊢ <;>
    constructor <;> linarith

theorem Locates.shiftRightOne (h : Locates x em.mantissa em.accuracy) :
    Locates (x / 2) em.shiftRightOne.mantissa em.shiftRightOne.accuracy := by
  obtain ⟨m, r, s⟩ := em
  obtain ⟨q, rfl | rfl⟩ := Nat.even_or_odd' m
  · have hdiv : 2 * q / 2 = q := by omega
    cases r <;> cases s <;>
      simp [ExtendedMantissa.accuracy, ExtendedMantissa.shiftRightOne, Locates, hdiv] at h ⊢ <;>
      (try constructor) <;> linarith
  · have hdiv : (2 * q + 1) / 2 = q := by omega
    have hmod : (2 * q + 1) % 2 = 1 := by omega
    cases r <;> cases s <;>
      simp [ExtendedMantissa.accuracy, ExtendedMantissa.shiftRightOne, Locates, hdiv, hmod]
        at h ⊢ <;>
      (try constructor) <;> linarith

theorem Locates.shiftRight (h : Locates x em.mantissa em.accuracy) (k : ℕ) :
    Locates (x / 2 ^ k) (em >>> k).mantissa (em >>> k).accuracy := by
  induction k with
  | zero =>
      rw [pow_zero, div_one]
      exact h
  | succ k ih =>
      rw [pow_succ, ← div_div]
      exact ih.shiftRightOne

theorem roundedMantissa_bounds (em : ExtendedMantissa) :
    em.mantissa ≤ em.roundedMantissa ∧ em.roundedMantissa ≤ em.mantissa + 1 := by
  obtain ⟨m, r, s⟩ := em
  cases r <;> cases s <;>
    simp only [ExtendedMantissa.roundedMantissa, ExtendedMantissa.accuracy,
      Accuracy.roundToNearestEven] <;> omega

/-- A significand is rounded by at most half a unit. -/
theorem Locates.abs_sub_roundedMantissa_le (h : Locates x em.mantissa em.accuracy) :
    |x - em.roundedMantissa| ≤ 2⁻¹ := by
  obtain ⟨m, r, s⟩ := em
  rw [abs_le]
  cases r <;> cases s <;>
    simp only [ExtendedMantissa.roundedMantissa, ExtendedMantissa.accuracy,
      Accuracy.roundToNearestEven, Locates] at h ⊢
  · constructor <;> linarith
  · constructor <;> linarith
  · rcases Nat.mod_two_eq_zero_or_one m with hm | hm <;> rw [hm] <;> push_cast <;>
      constructor <;> linarith
  · push_cast
    constructor <;> linarith

/-- No integer is nearer than the rounded significand. -/
theorem Locates.abs_sub_roundedMantissa_le_int (h : Locates x em.mantissa em.accuracy) (j : ℤ) :
    |x - em.roundedMantissa| ≤ |x - j| := by
  have hround := h.abs_sub_roundedMantissa_le
  by_cases hj : j = em.roundedMantissa
  · rw [hj, Int.cast_natCast]
  · -- two different integers are a unit apart
    have hone : (1 : ℝ) ≤ |(em.roundedMantissa : ℝ) - j| := by
      have : (1 : ℤ) ≤ |(em.roundedMantissa : ℤ) - j| := Int.one_le_abs (by omega)
      exact_mod_cast this
    have htri : |(em.roundedMantissa : ℝ) - j| ≤ |x - em.roundedMantissa| + |x - j| := by
      have := abs_sub_le (em.roundedMantissa : ℝ) x j
      rwa [abs_sub_comm (em.roundedMantissa : ℝ) x] at this
    linarith

end Located

/-! ## Rounded numbers -/

/-- A real number with a sign. -/
def signed (s : Sign) (x : ℝ) : ℝ :=
  match s with
  | .negative => -x
  | .positive => x

/-- The real number that an unpacked number stands for; zero where it is none. -/
noncomputable def valueOf : UnpackedFloat → ℝ
  | .finite s m e _ => signed s (m * ((2 : ℕ) : ℝ) ^ e)
  | .zero _ | .infinity _ | .notANumber => 0

theorem valueOf_finite (s : Sign) (m : ℕ) (e : ℤ) (hm : 0 < m) :
    valueOf (.finite s m e hm) = signed s (m * 2 ^ e) := rfl

theorem valueOf_zero (s : Sign) : valueOf (.zero s) = 0 := rfl

/-- A finite number in the form that the format asks for. -/
def IsProper (fmt : Format) : UnpackedFloat → Prop
  | .finite _ m e _ => m.log2 < fmt.mantissaBits ∧ fmt.minExponent ≤ e ∧ IsCanonical fmt m e
  | .zero _ => True
  | .infinity _ | .notANumber => False

/-- `u` is what `x` is rounded to, for as long as exponents have no bound. -/
structure IsRounded (fmt : Format) (x : ℝ) (u : UnpackedFloat) : Prop where
  isProper : IsProper fmt u
  isNearest : IsNearest fmt x (valueOf u)

theorem signed_neg (s : Sign) (x : ℝ) : signed (-s) x = -signed s x := by
  cases s
  · exact (neg_neg x).symm
  · rfl

theorem signed_mul (s : Sign) (x y : ℝ) : signed s (x * y) = signed s x * y := by
  cases s
  · exact (neg_mul x y).symm
  · rfl

@[simp] theorem signed_zero (s : Sign) : signed s 0 = 0 := by
  cases s
  · exact neg_zero
  · rfl

theorem abs_signed (s : Sign) (x : ℝ) : |signed s x| = |x| := by
  cases s
  · exact abs_neg x
  · rfl

theorem IsNearest.signed {fmt : Format} {x y : ℝ} (h : IsNearest fmt x y) (s : Sign) :
    IsNearest fmt (signed s x) (signed s y) := by
  cases s
  · exact h.neg
  · exact h

section Rounded

variable {fmt : Format} {m r : ℕ} {e t : ℤ} {x : ℝ} {acc : Accuracy}

/-- A rounded significand with at most one digit too many. -/
theorem exists_isCanonical (hr : r ≤ 2 ^ fmt.mantissaBits) (ht : fmt.minExponent ≤ t)
    (hfull : t = fmt.minExponent ∨ 2 ^ (fmt.mantissaBits - 1) ≤ r) :
    ∃ r' j : ℕ, r = r' * 2 ^ j ∧ (0 < r' ∨ j = 0) ∧ r'.log2 < fmt.mantissaBits ∧
      IsCanonical fmt r' (t + j) := by
  have hbits := two_le_mantissaBits fmt
  rcases hr.lt_or_eq with hlt | rfl
  · have hlog : r.log2 < fmt.mantissaBits := by
      rcases Nat.eq_zero_or_pos r with rfl | hpos
      · rw [Nat.log2_zero]
        omega
      · exact (Nat.log2_lt hpos.ne').2 hlt
    refine ⟨r, 0, (Nat.mul_one r).symm, .inr rfl, hlog, ?_⟩
    rw [Int.natCast_zero, Int.add_zero]
    rcases hfull with rfl | hfull
    · exact isCanonical_of_log2_lt hlog
    · have hpos : 0 < r := (Nat.two_pow_pos _).trans_le hfull
      have := (Nat.le_log2 hpos.ne').2 hfull
      exact isCanonical_of_log2_eq (by omega) ht
  · have hlog : (2 ^ (fmt.mantissaBits - 1)).log2 = fmt.mantissaBits - 1 := Nat.log2_two_pow
    refine ⟨2 ^ (fmt.mantissaBits - 1), 1, ?_, .inl (Nat.two_pow_pos _), by omega, ?_⟩
    · rw [pow_one, pow_sub_one_mul (by omega)]
    · exact isCanonical_of_log2_eq (by omega) (by omega)

/-- The significand that is left when `k` digits are shifted out fits the
format, and has all the digits of the format unless the exponent is smallest. -/
theorem Locates.shifted_bounds {k : ℕ} (h : Locates x m acc)
    (hk : fmt.targetExponent (totalExponent m e) = e + k) :
    let em := ExtendedMantissa.ofMantissaAndAccuracy m acc >>> k
    em.mantissa < 2 ^ fmt.mantissaBits ∧
      (e + k = fmt.minExponent ∨ 2 ^ (fmt.mantissaBits - 1) ≤ em.mantissa) := by
  intro em
  have hbits := two_le_mantissaBits fmt
  have hlocated := locates_ofMantissaAndAccuracy h
  obtain ⟨hle, hlt⟩ := (hlocated.shiftRight k).le_lt
  have hm : (ExtendedMantissa.ofMantissaAndAccuracy m acc).mantissa = m := by
    cases acc with
    | exact => rfl
    | inexact o => cases o <;> rfl
  obtain ⟨hmx, hxm⟩ := hm ▸ hlocated.le_lt
  have hpow : (0 : ℝ) < 2 ^ k := by positivity
  rw [le_div_iff₀ hpow] at hle
  rw [div_lt_iff₀ hpow] at hlt
  simp only [Format.targetExponent, totalExponent] at hk
  constructor
  · have hsize : m + 1 ≤ 2 ^ (fmt.mantissaBits + k) :=
      Nat.lt_log2_self.trans_le (Nat.pow_le_pow_right (by omega) (by omega))
    have : (em.mantissa : ℝ) * 2 ^ k < 2 ^ fmt.mantissaBits * 2 ^ k := by
      rw [← pow_add]
      exact hle.trans_lt (hxm.trans_le (by exact_mod_cast hsize))
    exact_mod_cast lt_of_mul_lt_mul_right this hpow.le
  · by_cases hmin : e + k = fmt.minExponent
    · exact .inl hmin
    · right
      have hlog : m.log2 = fmt.mantissaBits - 1 + k := by omega
      have hm0 : m ≠ 0 := by
        rintro rfl
        rw [Nat.log2_zero] at hlog
        omega
      have hsize : 2 ^ (fmt.mantissaBits - 1 + k) ≤ m := hlog ▸ Nat.log2_self_le hm0
      have : (2 : ℝ) ^ (fmt.mantissaBits - 1) * 2 ^ k < (em.mantissa + 1) * 2 ^ k := by
        rw [← pow_add]
        exact lt_of_le_of_lt (by exact_mod_cast hsize) (hmx.trans_lt hlt)
      exact Nat.lt_succ_iff.1 (by exact_mod_cast lt_of_mul_lt_mul_right this hpow.le)

/-- A nearest multiple of `2 ^ t` is a nearest number, if it fits the format
and no finer number is that large. -/
theorem isNearest_mul_two_zpow (hr : r ≤ 2 ^ fmt.mantissaBits) (ht : fmt.minExponent ≤ t)
    (hint : ∀ j : ℤ, |x - r| ≤ |x - j|)
    (hfull : t = fmt.minExponent ∨ (2 : ℝ) ^ (fmt.mantissaBits - 1) ≤ x) :
    IsNearest fmt (x * 2 ^ t) (r * 2 ^ t) := by
  have hbits := two_le_mantissaBits fmt
  have hpow : (0 : ℝ) < 2 ^ t := zpow_pos two_pos t
  have multiple (j : ℤ) : |x * 2 ^ t - r * 2 ^ t| ≤ |x * 2 ^ t - j * 2 ^ t| := by
    rw [← sub_mul, ← sub_mul, abs_mul, abs_mul]
    exact mul_le_mul_of_nonneg_right (hint j) (abs_nonneg _)
  refine ⟨?_, fun z hz => ?_⟩
  · rcases hr.lt_or_eq with hlt | rfl
    · refine isNumber_iff.2 ⟨r, t, ?_, ht, by rw [Int.cast_natCast]⟩
      rw [Nat.abs_cast]
      exact_mod_cast hlt
    · have hpower : ((2 ^ fmt.mantissaBits : ℕ) : ℝ) * 2 ^ t = 2 ^ (fmt.mantissaBits + t : ℤ) := by
        rw [zpow_add₀ two_ne_zero, zpow_natCast, Nat.cast_pow, Nat.cast_ofNat]
      rw [hpower]
      exact isNumber_two_zpow (by omega)
  · obtain ⟨j, e, hj, he, rfl⟩ := isNumber_iff.1 hz
    rcases le_or_gt t e with hte | hte
    · obtain ⟨k, rfl⟩ := Int.le.dest hte
      have hscale : (j : ℝ) * 2 ^ (t + k) = ((j * 2 ^ k : ℤ) : ℝ) * 2 ^ t := by
        rw [zpow_add₀ two_ne_zero, zpow_natCast]
        push_cast
        ring
      rw [hscale]
      exact multiple _
    · -- a finer number is not above the smallest one with all digits
      have hx := hfull.resolve_left (by omega)
      have hz : (j : ℝ) * 2 ^ e ≤ 2 ^ (fmt.mantissaBits - 1) * 2 ^ t := by
        have hj' : (j : ℝ) ≤ 2 ^ fmt.mantissaBits := by
          exact_mod_cast (le_abs_self j).trans hj.le
        calc (j : ℝ) * 2 ^ e ≤ 2 ^ fmt.mantissaBits * 2 ^ (t - 1) :=
              mul_le_mul hj' (zpow_le_zpow_right₀ one_le_two (by omega)) (by positivity)
                (by positivity)
          _ = 2 ^ (fmt.mantissaBits - 1) * 2 ^ t := by
              rw [zpow_sub_one₀ two_ne_zero, ← pow_sub_one_mul (by omega : fmt.mantissaBits ≠ 0)]
              ring
      have hmul := mul_le_mul_of_nonneg_right hx hpow.le
      have := multiple (2 ^ (fmt.mantissaBits - 1))
      push_cast at this
      rw [abs_of_nonneg (sub_nonneg.2 hmul)] at this
      refine this.trans ((sub_le_sub_left hz _).trans (le_abs_self _))

/-- Rounding a located number. -/
theorem roundWithAccuracy_isRounded (h : Locates x m acc)
    (he : e ≤ fmt.targetExponent (totalExponent m e)) (s : Sign) :
    IsRounded fmt (signed s (x * 2 ^ e)) (roundWithAccuracy fmt s m e acc) := by
  obtain ⟨k, hk⟩ := Int.le.dest he
  set em := ExtendedMantissa.ofMantissaAndAccuracy m acc >>> k with hem
  have hlocated : Locates (x / 2 ^ k) em.mantissa em.accuracy :=
    (locates_ofMantissaAndAccuracy h).shiftRight k
  obtain ⟨hlt, hfull⟩ : em.mantissa < 2 ^ fmt.mantissaBits ∧
      (e + k = fmt.minExponent ∨ 2 ^ (fmt.mantissaBits - 1) ≤ em.mantissa) :=
    h.shifted_bounds hk.symm
  obtain ⟨hle, hle'⟩ := roundedMantissa_bounds em
  have ht : fmt.minExponent ≤ e + k := by
    rw [hk, Format.targetExponent]
    omega
  have hr : em.roundedMantissa ≤ 2 ^ fmt.mantissaBits := by omega
  obtain ⟨r, j, hrj, hpos, hlog, hcanonical⟩ :=
    exists_isCanonical hr ht (hfull.imp_right fun h => h.trans hle)
  have hnearest : IsNearest fmt (x * 2 ^ e) (r * 2 ^ (e + k + j)) := by
    have := isNearest_mul_two_zpow hr ht hlocated.abs_sub_roundedMantissa_le_int
      (hfull.imp_right fun h => le_trans (by exact_mod_cast h) hlocated.le_lt.1)
    have hx : x / 2 ^ k * 2 ^ (e + k) = x * 2 ^ e := by
      rw [zpow_add₀ two_ne_zero, zpow_natCast]
      field_simp
    have hy : (em.roundedMantissa : ℝ) * 2 ^ (e + k) = r * 2 ^ (e + k + j) := by
      rw [hrj, zpow_add₀ two_ne_zero (e + k), zpow_natCast]
      push_cast
      ring
    rwa [hx, hy] at this
  have hround : roundWithAccuracy fmt s m e acc =
      if h : r = 0 then .zero s else .finite s r (e + k + j) (Nat.pos_of_ne_zero h) := by
    have first : shiftToTargetExponent fmt m e acc = (em, e + k) := by
      rw [shiftToTargetExponent, ← hk, shiftToExponent]
      simp only [add_sub_cancel_left, Int.toNat_natCast, hem]
    have second : shiftToTargetExponent fmt em.roundedMantissa (e + k) .exact
        = (⟨r, false, false⟩, e + k + j) := by
      have hexp : e + k + j - j = e + k := by omega
      have hshift := shiftToExponent_mul_two_pow r (e + k + j) j
      have htotal : totalExponent (r * 2 ^ j) (e + k) = totalExponent r (e + k + j) := by
        rcases hpos with hpos | rfl
        · rw [← totalExponent_mul_two_pow hpos (e + k + j) j, hexp]
        · rw [pow_zero, mul_one, Int.natCast_zero, Int.add_zero]
      rw [hexp] at hshift
      rw [hrj, shiftToTargetExponent, htotal, hcanonical, hshift]
    simp only [roundWithAccuracy, first, second]
  rw [hround]
  split
  · rename_i hr0
    rw [hr0, Nat.cast_zero, zero_mul] at hnearest
    refine ⟨trivial, ?_⟩
    show IsNearest fmt (signed s (x * 2 ^ e)) 0
    simpa only [signed_zero] using hnearest.signed s
  · exact ⟨⟨hlog, by omega, hcanonical⟩, hnearest.signed s⟩

end Rounded

/-! ## Proper numbers -/

section Proper

variable {fmt : Format} {u : UnpackedFloat}

theorem IsProper.zero_or_finite (h : IsProper fmt u) :
    (∃ s, u = .zero s) ∨ ∃ s m e hm, u = .finite s m e hm := by
  cases u with
  | zero s => exact .inl ⟨s, rfl⟩
  | finite s m e hm => exact .inr ⟨s, m, e, hm, rfl⟩
  | infinity s => exact h.elim
  | notANumber => exact h.elim

/-- A significand has all the digits of the format unless the exponent is the
smallest one. -/
theorem log2_add_one_of_isCanonical {m : ℕ} {e : ℤ} (h : IsCanonical fmt m e) :
    e = fmt.minExponent ∨ m.log2 + 1 = fmt.mantissaBits := by
  simp only [IsCanonical, Format.targetExponent, totalExponent] at h
  omega

theorem isRounded_zero (fmt : Format) (s : Sign) : IsRounded fmt 0 (.zero s) :=
  ⟨trivial, .self (isNumber_zero fmt)⟩

/-- Proper numbers are numbers of the format. -/
theorem IsProper.isNumber (h : IsProper fmt u) : IsNumber fmt (valueOf u) := by
  rcases h.zero_or_finite with ⟨s, rfl⟩ | ⟨s, m, e, hm, rfl⟩
  · exact isNumber_zero fmt
  · obtain ⟨hlog, he, -⟩ := h
    have hnumber : IsNumber fmt (m * 2 ^ e) := by
      refine isNumber_iff.2 ⟨m, e, ?_, he, by rw [Int.cast_natCast]⟩
      rw [Nat.abs_cast]
      exact_mod_cast (Nat.log2_lt hm.ne').1 hlog
    cases s
    · exact hnumber.neg
    · exact hnumber

theorem IsProper.isRounded (h : IsProper fmt u) : IsRounded fmt (valueOf u) u :=
  ⟨h, .self h.isNumber⟩

theorem IsProper.neg (h : IsProper fmt u) : IsProper fmt u.neg := by
  cases u <;> exact h

theorem valueOf_neg (u : UnpackedFloat) : valueOf u.neg = -valueOf u := by
  cases u with
  | finite s m e hm => exact signed_neg s _
  | zero s => exact neg_zero.symm
  | infinity s => exact neg_zero.symm
  | notANumber => exact neg_zero.symm

theorem IsProper.abs (h : IsProper fmt u) : IsProper fmt u.abs := by
  cases u <;> exact h

theorem valueOf_abs (u : UnpackedFloat) : valueOf u.abs = |valueOf u| := by
  cases u with
  | finite s m e hm =>
      have hnonneg : (0 : ℝ) ≤ m * 2 ^ e := by positivity
      rw [valueOf_finite, abs_signed, abs_of_nonneg hnonneg]
      rfl
  | zero s => exact abs_zero.symm
  | infinity s => exact abs_zero.symm
  | notANumber => exact abs_zero.symm

end Proper

end DenseNumeric.Binary
