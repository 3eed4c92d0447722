import Mathlib
import DenseNumeric.Proofs.UnpackedRounding

/-!
# Operations on unpacked numbers

Sums, products, quotients and roots of unpacked numbers, and their conversion
between formats. Each operation takes an exact result apart into a significand,
an exponent and what is known about the rest, and rounds once; so each gives a
number that is nearest to the exact result.
-/

namespace DenseNumeric.Binary

open Float.Model (Format UnpackedFloat totalExponent)
open Float.Model.UnpackedFloat hiding round

variable {fmt : Format} {u v : UnpackedFloat}

/-! ## Sums -/

/-- A number with any significand and exponent is rounded to the format. -/
theorem round_isRounded (fmt : Format) (s : Sign) {m : ℕ} (hm : 0 < m) (e : ℤ) :
    IsRounded fmt (signed s (m * 2 ^ e)) (UnpackedFloat.round fmt s m e) := by
  simp only [UnpackedFloat.round, decreaseExponent, Nat.shiftLeft_eq]
  set k := (e - fmt.targetExponent (totalExponent m e)).toNat
  have hvalue : (m : ℝ) * 2 ^ e = ((m * 2 ^ k : ℕ) : ℝ) * 2 ^ (e - k) := by
    rw [zpow_sub₀ two_ne_zero, zpow_natCast]
    push_cast
    field_simp
  rw [hvalue]
  refine roundWithAccuracy_isRounded (show Locates _ _ .exact from rfl) ?_ s
  rw [totalExponent_mul_two_pow hm]
  omega

theorem normalize_isRounded (fmt : Format) (m e : ℤ) (s : Sign) :
    IsRounded fmt (m * 2 ^ e) (UnpackedFloat.normalize fmt m e s) := by
  unfold UnpackedFloat.normalize
  split
  · rename_i h
    rw [Int.compare_eq_lt] at h
    have := round_isRounded fmt .negative (m := (-m).toNat) (by omega) e
    have hm : (((-m).toNat : ℕ) : ℝ) = -m := by exact_mod_cast Int.toNat_of_nonneg (by omega)
    rwa [hm, signed_mul, show signed .negative (-(m : ℝ)) = m from neg_neg _] at this
  · rename_i h
    rw [Int.compare_eq_eq] at h
    rw [h, Int.cast_zero, zero_mul]
    exact isRounded_zero fmt s
  · rename_i h
    rw [Int.compare_eq_gt] at h
    have := round_isRounded fmt .positive (m := m.toNat) (by omega) e
    have hm : ((m.toNat : ℕ) : ℝ) = m := by exact_mod_cast Int.toNat_of_nonneg h.le
    rwa [hm, signed_mul] at this

/-- A significand at an exponent that is not above its own. -/
theorem shiftLeft_mul_two_zpow (m : ℕ) {e low : ℤ} (h : low ≤ e) :
    ((m <<< (e - low).toNat : ℕ) : ℝ) * 2 ^ low = m * 2 ^ e := by
  obtain ⟨k, rfl⟩ := Int.le.dest h
  have hk : (low + k - low).toNat = k := by omega
  rw [hk, Nat.shiftLeft_eq, zpow_add₀ two_ne_zero, zpow_natCast]
  push_cast
  ring

theorem apply_decreaseExponent (s : Sign) (m : ℕ) {e low : ℤ} (h : low ≤ e) :
    ((s.apply ((decreaseExponent m e low).1 : ℕ) : ℤ) : ℝ) * 2 ^ low = signed s (m * 2 ^ e) := by
  rw [← shiftLeft_mul_two_zpow m h, signed_mul]
  cases s
  · exact congrArg (· * (2 : ℝ) ^ low) (Int.cast_neg _)
  · rfl

theorem add_isRounded (hu : IsProper fmt u) (hv : IsProper fmt v) :
    IsRounded fmt (valueOf u + valueOf v) (UnpackedFloat.add fmt u v) := by
  rcases hu.zero_or_finite with ⟨s, rfl⟩ | ⟨s, m, e, hm, rfl⟩ <;>
    rcases hv.zero_or_finite with ⟨s', rfl⟩ | ⟨s', m', e', hm', rfl⟩
  · rw [valueOf_zero, valueOf_zero, add_zero]
    simp only [UnpackedFloat.add]
    split <;> exact isRounded_zero fmt _
  · rw [valueOf_zero, zero_add]
    exact hv.isRounded
  · rw [valueOf_zero, add_zero]
    exact hu.isRounded
  · have := normalize_isRounded fmt
      (s.apply ((decreaseExponent m e (min e e')).1 : ℕ)
        + s'.apply ((decreaseExponent m' e' (min e e')).1 : ℕ)) (min e e') .positive
    rwa [Int.cast_add, add_mul, apply_decreaseExponent s m (min_le_left e e'),
      apply_decreaseExponent s' m' (min_le_right e e')] at this

theorem sub_eq_add (fmt : Format) (u v : UnpackedFloat) :
    UnpackedFloat.sub fmt u v = UnpackedFloat.add fmt u v.neg := by
  have happly (s : Sign) (n : ℤ) : (-s).apply n = -s.apply n := by
    cases s
    · exact (neg_neg n).symm
    · rfl
  cases u <;> cases v <;>
    simp [UnpackedFloat.sub, UnpackedFloat.add, UnpackedFloat.neg, happly, Int.sub_eq_add_neg]

theorem sub_isRounded (hu : IsProper fmt u) (hv : IsProper fmt v) :
    IsRounded fmt (valueOf u - valueOf v) (UnpackedFloat.sub fmt u v) := by
  rw [sub_eq_add, sub_eq_add_neg, ← valueOf_neg]
  exact add_isRounded hu hv.neg

/-! ## Products and quotients -/

theorem signed_mul_signed (s s' : Sign) (x y : ℝ) :
    signed (s * s') (x * y) = signed s x * signed s' y := by
  cases s <;> cases s'
  · exact (neg_mul_neg x y).symm
  · exact (neg_mul x y).symm
  · exact (mul_neg x y).symm
  · rfl

theorem signed_div_signed (s s' : Sign) (x y : ℝ) :
    signed (s / s') (x / y) = signed s x / signed s' y := by
  cases s <;> cases s'
  · exact (neg_div_neg_eq x y).symm
  · exact (neg_div y x).symm
  · exact (div_neg x).symm
  · rfl

theorem mul_isRounded (hfmt : 2 ≤ fmt.exponentBits) (hu : IsProper fmt u) (hv : IsProper fmt v) :
    IsRounded fmt (valueOf u * valueOf v) (UnpackedFloat.mul fmt u v) := by
  rcases hu.zero_or_finite with ⟨s, rfl⟩ | ⟨s, m, e, hm, rfl⟩ <;>
    rcases hv.zero_or_finite with ⟨s', rfl⟩ | ⟨s', m', e', hm', rfl⟩
  · rw [valueOf_zero, zero_mul]
    exact isRounded_zero fmt _
  · rw [valueOf_zero, zero_mul]
    exact isRounded_zero fmt _
  · rw [valueOf_zero, mul_zero]
    exact isRounded_zero fmt _
  · obtain ⟨-, he, hcanonical⟩ := hu
    obtain ⟨-, he', hcanonical'⟩ := hv
    have hvalue : valueOf (.finite s m e hm) * valueOf (.finite s' m' e' hm')
        = signed (s * s') ((m * m' : ℕ) * 2 ^ (e + e')) := by
      rw [valueOf_finite, valueOf_finite, ← signed_mul_signed, zpow_add₀ two_ne_zero]
      push_cast
      ring_nf
    rw [hvalue]
    refine roundWithAccuracy_isRounded (show Locates _ _ .exact from rfl) ?_ _
    -- two significands with few digits have exponents that are small enough
    have hlog : m.log2 + m'.log2 ≤ (m * m').log2 := by
      refine (Nat.le_log2 (Nat.mul_pos hm hm').ne').2 ?_
      rw [pow_add]
      exact Nat.mul_le_mul (Nat.log2_self_le hm.ne') (Nat.log2_self_le hm'.ne')
    have hmin := minExponent_nonpos hfmt
    simp only [Format.targetExponent, totalExponent]
    rcases log2_add_one_of_isCanonical hcanonical with h | h <;>
      rcases log2_add_one_of_isCanonical hcanonical' with h' | h' <;> omega

/-- Digits are shifted out, and none are missing, if the exponent is among the
smallest or the significand has all the digits of the format. -/
theorem le_targetExponent {q : ℕ} {t : ℤ}
    (h : t ≤ fmt.minExponent ∨ 2 ^ (fmt.mantissaBits - 1) ≤ q) :
    t ≤ fmt.targetExponent (totalExponent q t) := by
  simp only [Format.targetExponent, totalExponent]
  rcases h with h | h
  · omega
  · have := (Nat.le_log2 ((Nat.two_pow_pos _).trans_le h).ne').2 h
    have := two_le_mantissaBits fmt
    omega

/-- A quotient of integers, located by its remainder. -/
theorem locates_div (m : ℕ) {d : ℕ} (hd : 0 < d) :
    Locates (m / d) (m / d : ℕ) (accuracyOfFraction (m % d) d) := by
  have hpos : (0 : ℝ) < d := by exact_mod_cast hd
  have hdiv : (m : ℝ) = d * (m / d : ℕ) + (m % d : ℕ) := by
    exact_mod_cast (Nat.div_add_mod m d).symm
  have hx : (m : ℝ) / d = (m / d : ℕ) + (m % d : ℕ) / d := by
    rw [hdiv]
    field_simp
  have hlt : ((m % d : ℕ) : ℝ) < d := by exact_mod_cast Nat.mod_lt m hd
  unfold accuracyOfFraction
  split
  · rename_i h
    rw [hx, h, Nat.cast_zero, zero_div, add_zero]
    rfl
  · rename_i h
    have hrem : (0 : ℝ) < (m % d : ℕ) := by exact_mod_cast Nat.pos_of_ne_zero h
    have hfrac : 0 < ((m % d : ℕ) : ℝ) / d := div_pos hrem hpos
    have hfrac' : ((m % d : ℕ) : ℝ) / d < 1 := (div_lt_one hpos).2 hlt
    rw [hx]
    cases ho : compare (2 * (m % d)) d with
    | lt =>
        rw [Nat.compare_eq_lt] at ho
        have : ((m % d : ℕ) : ℝ) / d < 2⁻¹ := by
          rw [div_lt_iff₀ hpos]
          have : (2 * (m % d : ℕ) : ℝ) < d := by exact_mod_cast ho
          linarith
        exact ⟨by linarith, by linarith⟩
    | eq =>
        rw [Nat.compare_eq_eq] at ho
        have : ((m % d : ℕ) : ℝ) / d = 2⁻¹ := by
          rw [div_eq_iff hpos.ne']
          have : (2 * (m % d : ℕ) : ℝ) = d := by exact_mod_cast ho
          linarith
        simp only [Locates]
        linarith
    | gt =>
        rw [Nat.compare_eq_gt] at ho
        have : 2⁻¹ < ((m % d : ℕ) : ℝ) / d := by
          rw [lt_div_iff₀ hpos]
          have : (d : ℝ) < 2 * (m % d : ℕ) := by exact_mod_cast ho
          linarith
        exact ⟨by linarith, by linarith⟩

theorem divCore_spec (fmt : Format) {m d : ℕ} (hm : 0 < m) (hd : 0 < d) (e e' : ℤ) :
    let (q, t, acc) := divCore fmt m e d e'
    t ≤ fmt.targetExponent (totalExponent q t) ∧
      ∃ x : ℝ, Locates x q acc ∧ x * 2 ^ t = m * 2 ^ e / (d * 2 ^ e') := by
  simp only [divCore, Nat.shiftLeft_eq]
  set t := min (e - e') (fmt.targetExponent (totalExponent m e - totalExponent d e')) with ht
  obtain ⟨k, hk⟩ := Int.le.dest (show t ≤ e - e' from min_le_left _ _)
  have hk' : (e - e' - t).toNat = k := by omega
  rw [hk']
  refine ⟨le_targetExponent ?_, _, locates_div (m * 2 ^ k) hd, ?_⟩
  · by_cases hmin : t ≤ fmt.minExponent
    · exact .inl hmin
    · have htarget : t ≤ fmt.targetExponent (totalExponent m e - totalExponent d e') :=
        min_le_right _ _
      have hbits := two_le_mantissaBits fmt
      simp only [Format.targetExponent, totalExponent] at htarget
      have hlog : d.log2 + 1 + (fmt.mantissaBits - 1) ≤ m.log2 + k := by omega
      refine .inr ((Nat.le_div_iff_mul_le hd).2 ?_)
      calc 2 ^ (fmt.mantissaBits - 1) * d
          ≤ 2 ^ (fmt.mantissaBits - 1) * 2 ^ (d.log2 + 1) :=
            Nat.mul_le_mul_left _ Nat.lt_log2_self.le
        _ = 2 ^ (d.log2 + 1 + (fmt.mantissaBits - 1)) := by rw [← pow_add, Nat.add_comm]
        _ ≤ 2 ^ (m.log2 + k) := Nat.pow_le_pow_right (by omega) hlog
        _ ≤ m * 2 ^ k := by
            rw [pow_add]
            exact Nat.mul_le_mul_right _ (Nat.log2_self_le hm.ne')
  · have he : (2 : ℝ) ^ e = 2 ^ t * 2 ^ k * 2 ^ e' := by
      rw [← zpow_natCast, ← zpow_add₀ two_ne_zero, ← zpow_add₀ two_ne_zero]
      congr 1
      omega
    have hd' : (d : ℝ) ≠ 0 := by exact_mod_cast hd.ne'
    rw [he]
    push_cast
    field_simp

theorem div_isRounded (hu : IsProper fmt u) (hv : IsProper fmt v) (hv0 : valueOf v ≠ 0) :
    IsRounded fmt (valueOf u / valueOf v) (UnpackedFloat.div fmt u v) := by
  rcases hv.zero_or_finite with ⟨s', rfl⟩ | ⟨s', m', e', hm', rfl⟩
  · exact absurd (valueOf_zero s') hv0
  · rcases hu.zero_or_finite with ⟨s, rfl⟩ | ⟨s, m, e, hm, rfl⟩
    · rw [valueOf_zero, zero_div]
      exact isRounded_zero fmt _
    · obtain ⟨ht, x, hx, hvalue⟩ := divCore_spec fmt hm hm' e e'
      have := roundWithAccuracy_isRounded hx ht (s / s')
      rwa [hvalue, signed_div_signed] at this

/-! ## Roots -/

/-- The root of an integer, located by what its square leaves. -/
theorem locates_sqrt (m : ℕ) :
    let root := m.sqrt
    let rem := m - root * root
    Locates √m root (if rem = 0 then .exact else .inexact (if rem ≤ root then .lt else .gt)) := by
  intro root rem
  have hle : root * root ≤ m := Nat.sqrt_le m
  have hlt : m < (root + 1) * (root + 1) := Nat.lt_succ_sqrt m
  have hroot : (0 : ℝ) ≤ root := Nat.cast_nonneg _
  split
  · rename_i h
    have hm : m = root * root := by omega
    rw [hm, Nat.cast_mul, Real.sqrt_mul_self hroot]
    rfl
  · rename_i h
    have hlow : (root : ℝ) < √m := by
      refine Real.lt_sqrt_of_sq_lt ?_
      rw [sq]
      exact_mod_cast (show root * root < m by omega)
    split
    · rename_i hrem
      have hm : (m : ℝ) ≤ root * root + root := by
        exact_mod_cast (show m ≤ root * root + root by omega)
      have hmid : √m < root + 2⁻¹ := (Real.sqrt_lt' (by positivity)).2 (by nlinarith)
      exact ⟨hlow, by linarith⟩
    · rename_i hrem
      have hm : (root * root + root + 1 : ℝ) ≤ m := by
        exact_mod_cast (show root * root + root + 1 ≤ m by omega)
      have hmid : root + 2⁻¹ < √m := Real.lt_sqrt_of_sq_lt (by nlinarith)
      refine ⟨by linarith, (Real.sqrt_lt' (by positivity)).2 ?_⟩
      rw [sq]
      exact_mod_cast hlt

theorem sqrtCore_spec (fmt : Format) {m : ℕ} (hm : 0 < m) (e : ℤ) :
    let (q, t, acc) := sqrtCore fmt m e
    t ≤ fmt.targetExponent (totalExponent q t) ∧
      ∃ x : ℝ, Locates x q acc ∧ x * 2 ^ t = √(m * 2 ^ e) := by
  simp only [sqrtCore, Nat.shiftLeft_eq]
  set t := min (e.ediv 2) (fmt.targetExponent ((totalExponent m e + 1).ediv 2)) with ht
  have hte : t ≤ e.ediv 2 := min_le_left _ _
  have hediv : e.ediv 2 = e / 2 := rfl
  obtain ⟨k, hk⟩ := Int.le.dest (show 2 * t ≤ e by omega)
  have hk' : (e - 2 * t).toNat = k := by omega
  rw [hk']
  refine ⟨le_targetExponent ?_, _, locates_sqrt (m * 2 ^ k), ?_⟩
  · by_cases hmin : t ≤ fmt.minExponent
    · exact .inl hmin
    · have htarget : t ≤ fmt.targetExponent ((totalExponent m e + 1).ediv 2) := min_le_right _ _
      have hediv' : (totalExponent m e + 1).ediv 2 = (totalExponent m e + 1) / 2 := rfl
      have hbits := two_le_mantissaBits fmt
      simp only [Format.targetExponent, hediv'] at htarget
      simp only [totalExponent] at htarget
      have hlog : 2 * (fmt.mantissaBits - 1) ≤ m.log2 + k := by omega
      refine .inr (Nat.le_sqrt'.2 ?_)
      calc (2 ^ (fmt.mantissaBits - 1)) ^ 2 = 2 ^ (2 * (fmt.mantissaBits - 1)) := by
            rw [← pow_mul, Nat.mul_comm]
        _ ≤ 2 ^ (m.log2 + k) := Nat.pow_le_pow_right (by omega) hlog
        _ ≤ m * 2 ^ k := by
            rw [pow_add]
            exact Nat.mul_le_mul_right _ (Nat.log2_self_le hm.ne')
  · have he : (m : ℝ) * 2 ^ e = (m * 2 ^ k : ℕ) * (2 ^ t) ^ 2 := by
      have : (2 : ℝ) ^ e = 2 ^ k * (2 ^ t) ^ 2 := by
        rw [← zpow_natCast, ← zpow_natCast, ← zpow_mul, ← zpow_add₀ two_ne_zero]
        congr 1
        push_cast
        omega
      rw [this]
      push_cast
      ring
    rw [he, Real.sqrt_mul (Nat.cast_nonneg _), Real.sqrt_sq (zpow_pos two_pos t).le]

theorem sqrt_isRounded (hu : IsProper fmt u) (hu0 : 0 ≤ valueOf u) :
    IsRounded fmt √(valueOf u) (UnpackedFloat.sqrt fmt u) := by
  rcases hu.zero_or_finite with ⟨s, rfl⟩ | ⟨s, m, e, hm, rfl⟩
  · rw [valueOf_zero, Real.sqrt_zero]
    exact isRounded_zero fmt s
  · cases s with
    | negative =>
        have : (0 : ℝ) < m * 2 ^ e := mul_pos (by exact_mod_cast hm) (zpow_pos two_pos e)
        exact absurd hu0 (not_le.2 (neg_neg_of_pos this))
    | positive =>
        obtain ⟨ht, x, hx, hvalue⟩ := sqrtCore_spec fmt hm e
        have := roundWithAccuracy_isRounded hx ht .positive
        rwa [hvalue] at this

theorem hypot_isRounded (hu : IsProper fmt u) (hv : IsProper fmt v) :
    IsRounded fmt √(valueOf u ^ 2 + valueOf v ^ 2) (hypot fmt u v) := by
  rcases hu.zero_or_finite with ⟨s, rfl⟩ | ⟨s, m, e, hm, rfl⟩
  · have hv' : IsRounded fmt √(valueOf v ^ 2) v.abs := by
      rw [Real.sqrt_sq_eq_abs, ← valueOf_abs]
      exact hv.abs.isRounded
    rw [valueOf_zero, zero_pow two_ne_zero, zero_add]
    rcases hv.zero_or_finite with ⟨s', rfl⟩ | ⟨s', m', e', hm', rfl⟩
    · exact hv'
    · exact hv'
  · rcases hv.zero_or_finite with ⟨s', rfl⟩ | ⟨s', m', e', hm', rfl⟩
    · rw [valueOf_zero, zero_pow two_ne_zero, add_zero, Real.sqrt_sq_eq_abs, ← valueOf_abs]
      exact hu.abs.isRounded
    · set low := min e e'
      set leg := m <<< (e - low).toNat with hleg
      set leg' := m' <<< (e' - low).toNat with hleg'
      have hpos : 0 < leg * leg + leg' * leg' := by
        have : 0 < leg := by
          rw [hleg, Nat.shiftLeft_eq]
          positivity
        positivity
      have hvalue : ((leg * leg + leg' * leg' : ℕ) : ℝ) * 2 ^ (2 * low)
          = valueOf (.finite s m e hm) ^ 2 + valueOf (.finite s' m' e' hm') ^ 2 := by
        rw [← sq_abs (valueOf _), ← sq_abs (valueOf (.finite s' m' e' hm')), valueOf_finite,
          valueOf_finite, abs_signed, abs_signed, sq_abs, sq_abs,
          ← shiftLeft_mul_two_zpow m (min_le_left e e'),
          ← shiftLeft_mul_two_zpow m' (min_le_right e e'), two_mul, zpow_add₀ two_ne_zero]
        push_cast
        ring
      obtain ⟨ht, x, hx, hroot⟩ := sqrtCore_spec fmt hpos (2 * low)
      have := roundWithAccuracy_isRounded hx ht .positive
      rwa [hroot, hvalue] at this

/-! ## Other formats and integers -/

theorem roundTo_isRounded {fmt' : Format} (hu : IsProper fmt' u) :
    IsRounded fmt (valueOf u) (roundTo fmt u) := by
  rcases hu.zero_or_finite with ⟨s, rfl⟩ | ⟨s, m, e, hm, rfl⟩
  · exact isRounded_zero fmt s
  · exact round_isRounded fmt s hm e

theorem ofInt_isRounded (fmt : Format) (n : ℤ) : IsRounded fmt n (UnpackedFloat.ofInt fmt n) := by
  have := normalize_isRounded fmt n 0 .positive
  rwa [zpow_zero, mul_one] at this

end DenseNumeric.Binary
