import DenseNumeric.Complex
import DenseNumeric.Proofs.PackedNumbers

/-!
# Undefined quotients

A quotient of complex numbers is undefined over zero. Over any other finite
divisor it depends on one number: the taxicab length of the divisor. If that is
in range then so is everything on the way to the denominator, which is not zero,
and no part of the quotient is undefined, whatever is divided. But the length of
a finite divisor can be out of range, as it is up to twice as large as a part.
Then the scaled divisor vanishes, the denominator is an infinity times zero, and
both parts of every quotient are undefined.
-/

namespace DenseNumeric.Complex

open Binary Binary.Packed Float.Model

variable {R : Type} [Arith R] {z w : Complex R}

/-! ## The denominator -/

/-- The number that the parts of a quotient by `w` are divided by. -/
def denominator (w : Complex R) : R :=
  (w.re / w.taxicab * (w.re / w.taxicab) + w.im / w.taxicab * (w.im / w.taxicab)) * w.taxicab

theorem div_eq_of_taxicab (h : (w.taxicab == 0) = false) : z / w =
    ⟨(z.re * (w.re / w.taxicab) + z.im * (w.im / w.taxicab)) / w.denominator,
      (z.im * (w.re / w.taxicab) - z.re * (w.im / w.taxicab)) / w.denominator⟩ :=
  if_neg (Bool.eq_false_iff.1 h)

theorem parts_isFinite (h : w.isFinite = true) :
    Arith.isFinite w.re = true ∧ Arith.isFinite w.im = true := Bool.and_eq_true_iff.1 h

variable [Packed R]

/-- The length is rounded from the sum of the sizes. -/
theorem roundsIn_taxicab (hw : w.isFinite = true) :
    RoundsIn (|value w.re| + |value w.im|) w.taxicab := by
  obtain ⟨hre, him⟩ := parts_isFinite hw
  obtain ⟨hre, hre'⟩ := abs_spec hre
  obtain ⟨him, him'⟩ := abs_spec him
  rw [← hre', ← him']
  exact roundsIn_add hre him

/-- It is in range if the parts are below half of what is out of range. -/
theorem taxicab_isFinite (hw : w.isFinite = true) (hre : 2 * |value w.re| < overflowAt (format R))
    (him : 2 * |value w.im| < overflowAt (format R)) : Arith.isFinite w.taxicab = true := by
  obtain ⟨hre', him'⟩ := parts_isFinite hw
  have hsum : |(|value w.re| + |value w.im|)| = |value w.re| + |value w.im| :=
    abs_of_nonneg (add_nonneg (abs_nonneg _) (abs_nonneg _))
  rcases le_total |value w.re| |value w.im| with hle | hle
  · exact ((roundsIn_taxicab hw).yields_of_le (isNumber_value him').abs.mul_two
      (by linarith) him).isFinite
  · exact ((roundsIn_taxicab hw).yields_of_le (isNumber_value hre').abs.mul_two
      (by linarith) hre).isFinite

theorem value_taxicab_pos (hw : w.isFinite = true) (h0 : w.isZero = false)
    (hs : Arith.isFinite w.taxicab = true) : 0 < value w.taxicab := by
  obtain ⟨hre, him⟩ := parts_isFinite hw
  have hnearest := ((roundsIn_taxicab hw).yields hs).isNearest
  have hre' := hnearest.ge_of_ge (isNumber_value hre).abs (by linarith [abs_nonneg (value w.im)])
  have him' := hnearest.ge_of_ge (isNumber_value him).abs (by linarith [abs_nonneg (value w.re)])
  by_contra! hle
  have hzero : w.isZero = true := by
    refine Bool.and_eq_true_iff.2 ⟨beq_zero_iff.2 ⟨hre, ?_⟩, beq_zero_iff.2 ⟨him, ?_⟩⟩
    · exact abs_nonpos_iff.1 (hre'.trans hle)
    · exact abs_nonpos_iff.1 (him'.trans hle)
  rw [hzero] at h0
  cases h0

/-- A number that is finite and not larger than one. -/
def IsAtMostOne (x : R) : Prop := Arith.isFinite x = true ∧ |value x| ≤ 1

/-- Everything on the way to a quotient over `w` is in range, and there is
something to divide by. -/
structure IsUsable (w : Complex R) : Prop where
  re : IsAtMostOne (w.re / w.taxicab)
  im : IsAtMostOne (w.im / w.taxicab)
  denominator_isFinite : Arith.isFinite w.denominator = true
  denominator_pos : 0 < value w.denominator

/-- The denominator is not larger than the length, so it is in range with it. -/
theorem isUsable_of_isFinite (hw : w.isFinite = true) (h0 : w.isZero = false)
    (hs : Arith.isFinite w.taxicab = true) : w.IsUsable := by
  obtain ⟨hre, him⟩ := parts_isFinite hw
  have hpos := value_taxicab_pos hw h0 hs
  have hlength := ((roundsIn_taxicab hw).yields hs).isNearest
  have hone : IsNumber (format R) 1 := isWide.isNumber_one
  have hrange := two_lt_overflowAt R
  have hscaled {x : R} (hx : Arith.isFinite x = true) (hle : |value x| ≤ value w.taxicab) :
      Yields (value x / value w.taxicab) (x / w.taxicab) ∧ |value (x / w.taxicab)| ≤ 1 := by
    have hle : |value x / value w.taxicab| ≤ 1 := by
      rw [abs_div, abs_of_pos hpos]
      exact (div_le_one₀ hpos).2 hle
    have hyields := (roundsIn_div hx hs hpos.ne').yields_of_le hone hle (by linarith)
    exact ⟨hyields, hyields.isNearest.abs_le_of_le hone hle⟩
  obtain ⟨hc, hc1⟩ := hscaled hre
    (hlength.ge_of_ge (isNumber_value hre).abs (by linarith [abs_nonneg (value w.im)]))
  obtain ⟨hd, hd1⟩ := hscaled him
    (hlength.ge_of_ge (isNumber_value him).abs (by linarith [abs_nonneg (value w.re)]))
  have hsquare {x : R} (hx : Arith.isFinite x = true) (hle : |value x| ≤ 1) :
      Yields (|value x| * |value x|) (x * x) ∧ |value (x * x)| ≤ 1 := by
    have hle : |(|value x| * |value x|)| ≤ 1 := by
      rw [abs_mul, abs_abs]
      exact mul_le_one₀ hle (abs_nonneg _) hle
    have hrounds := roundsIn_mul hx hx
    rw [← abs_mul_abs_self] at hrounds
    have hyields := hrounds.yields_of_le hone hle (by linarith)
    exact ⟨hyields, hyields.isNearest.abs_le_of_le hone hle⟩
  obtain ⟨ha, ha1⟩ := hsquare hc.isFinite hc1
  obtain ⟨hb, hb1⟩ := hsquare hd.isFinite hd1
  have hq := (roundsIn_add ha.isFinite hb.isFinite).yields_of_le hone.mul_two
    ((abs_add_le _ _).trans (by linarith)) (by linarith)
  have hquotient {x y : ℝ} (h : IsNearest (format R) (x / value w.taxicab) y) :
      IsNearest (format R) (|x| / value w.taxicab) |y| := by
    have := h.abs
    rwa [abs_div, abs_of_pos hpos] at this
  have hscaling : IsScaling (format R) |value w.re| |value w.im| (value w.taxicab) _ _ _ _ _ :=
    { isNumber_left := (isNumber_value hre).abs
      isNumber_right := (isNumber_value him).abs
      left_nonneg := abs_nonneg _
      right_nonneg := abs_nonneg _
      length_pos := hpos
      length := hlength
      left := hquotient hc.isNearest
      right := hquotient hd.isNearest
      left_square := ha.isNearest
      right_square := hb.isNearest
      squares := hq.isNearest }
  have hq0 := hq.isNearest.nonneg (add_nonneg (ha.isNearest.nonneg (mul_self_nonneg _))
    (hb.isNearest.nonneg (mul_self_nonneg _)))
  have hq1 := hscaling.squares_le_one isWide
  have hr := (roundsIn_mul hq.isFinite hs).yields_of_le (isNumber_value hs)
    (by rw [abs_of_nonneg (mul_nonneg hq0 hpos.le)]; exact mul_le_of_le_one_left hpos.le hq1)
    ((le_abs_self _).trans_lt (abs_value_lt hs))
  exact ⟨⟨hc.isFinite, hc1⟩, ⟨hd.isFinite, hd1⟩, hr.isFinite,
    (hscaling.denominator_mem isWide hr.isNearest).1⟩

/-! ## Undefined parts -/

/-- Sums and differences of products with parts that are at most one. -/
theorem isNaN_combination_eq_false {x y c d : R} (hx : Arith.isFinite x = true)
    (hy : Arith.isFinite y = true) (hc : IsAtMostOne c) (hd : IsAtMostOne d) :
    isNaN (x * c + y * d) = false ∧ isNaN (x * c - y * d) = false := by
  have hproduct {x c : R} (hx : Arith.isFinite x = true) (hc : IsAtMostOne c) :
      Arith.isFinite (x * c) = true := by
    refine ((roundsIn_mul hx hc.1).yields_of_le (isNumber_value hx).abs ?_
      (abs_value_lt hx)).isFinite
    rw [abs_mul]
    exact mul_le_of_le_one_right (abs_nonneg _) hc.2
  have hxc := hproduct hx hc
  have hyd := hproduct hy hd
  exact ⟨(roundsIn_add hxc hyd).isNaN_eq_false, (roundsIn_sub hxc hyd).isNaN_eq_false⟩

/-- A finite number over an infinity is a zero, and so are its squares. What is
left of the denominator is zero times infinity. -/
theorem unpacked_denominator (hw : w.isFinite = true) (hs : Arith.isFinite w.taxicab = false) :
    unpacked w.denominator = .notANumber := by
  obtain ⟨hre, him⟩ := parts_isFinite hw
  obtain ⟨s, hinf⟩ : ∃ s, unpacked w.taxicab = .infinity s := by
    rcases roundsIn_taxicab hw with h | ⟨-, s, -, -, hs⟩
    · rw [h.isFinite] at hs
      cases hs
    · exact ⟨s, hs⟩
  have hzero {x : R} (hx : Arith.isFinite x = true) :
      ∃ s, unpacked (x / w.taxicab * (x / w.taxicab)) = .zero s := by
    have hquotient : ∃ s, unpacked (x / w.taxicab) = .zero s := by
      have hdiv := unpacked_div x w.taxicab
      rw [hinf] at hdiv
      rcases (isProper_of_isFinite hx).zero_or_finite with ⟨s', hs'⟩ | ⟨s', m, e, hm, hs'⟩
      · rw [hs'] at hdiv
        exact ⟨_, hdiv.trans (repack_zero _ _)⟩
      · rw [hs'] at hdiv
        exact ⟨_, hdiv.trans (repack_zero _ _)⟩
    obtain ⟨s', hs'⟩ := hquotient
    have hmul := unpacked_mul (x / w.taxicab) (x / w.taxicab)
    rw [hs'] at hmul
    exact ⟨_, hmul.trans (repack_zero _ _)⟩
  obtain ⟨s₁, hs₁⟩ := hzero hre
  obtain ⟨s₂, hs₂⟩ := hzero him
  have hsum : ∃ s, unpacked (w.re / w.taxicab * (w.re / w.taxicab)
      + w.im / w.taxicab * (w.im / w.taxicab)) = .zero s := by
    have hadd := unpacked_add (w.re / w.taxicab * (w.re / w.taxicab))
      (w.im / w.taxicab * (w.im / w.taxicab))
    rw [hs₁, hs₂] at hadd
    have hzeros : ∃ s, UnpackedFloat.add (format R) (.zero s₁) (.zero s₂) = .zero s := by
      cases s₁ <;> cases s₂ <;> exact ⟨_, rfl⟩
    obtain ⟨s, hs⟩ := hzeros
    rw [hs] at hadd
    exact ⟨s, hadd.trans (repack_zero _ _)⟩
  obtain ⟨s₃, hs₃⟩ := hsum
  have hproduct := unpacked_mul (w.re / w.taxicab * (w.re / w.taxicab)
      + w.im / w.taxicab * (w.im / w.taxicab)) w.taxicab
  rw [hs₃, hinf] at hproduct
  exact hproduct.trans (repack_notANumber _)

theorem isUsable_iff (hw : w.isFinite = true) (h0 : w.isZero = false) :
    w.IsUsable ↔ Arith.isFinite w.taxicab = true := by
  refine ⟨fun h => ?_, isUsable_of_isFinite hw h0⟩
  by_contra hs
  have hfinite := h.denominator_isFinite
  rw [isFinite_eq, unpacked_denominator hw (Bool.eq_false_iff.2 hs)] at hfinite
  cases hfinite

/-- Over a divisor that is finite and not zero, either both parts are defined,
or none of them: it depends on the length of the divisor alone. -/
theorem isNaN_div_iff (hz : z.isFinite = true) (hw : w.isFinite = true) (h0 : w.isZero = false) :
    isNaN (z / w).re = !Arith.isFinite w.taxicab ∧
      isNaN (z / w).im = !Arith.isFinite w.taxicab := by
  have hbeq : (w.taxicab == 0) = false := by
    rw [Bool.eq_false_iff, Ne, beq_zero_iff]
    exact fun ⟨hs, hzero⟩ => (value_taxicab_pos hw h0 hs).ne' hzero
  rw [div_eq_of_taxicab hbeq]
  cases hs : Arith.isFinite w.taxicab with
  | true =>
      obtain ⟨hc, hd, hdenominator, hpos⟩ := isUsable_of_isFinite hw h0 hs
      obtain ⟨hre, him⟩ := parts_isFinite hz
      exact ⟨isNaN_div_eq_false (isNaN_combination_eq_false hre him hc hd).1 hdenominator hpos.ne',
        isNaN_div_eq_false (isNaN_combination_eq_false him hre hc hd).2 hdenominator hpos.ne'⟩
  | false =>
      have hdiv (x : R) : isNaN (x / w.denominator) = true := by
        have hundefined (u : UnpackedFloat) :
            UnpackedFloat.div (format R) u .notANumber = .notANumber := by
          cases u <;> rfl
        rw [isNaN_iff, unpacked_div, unpacked_denominator hw hs, hundefined, repack_notANumber]
      exact ⟨hdiv _, hdiv _⟩

/-! ## Double and single precision -/

/-- Quotients in both precisions, over finite divisors that are not zero. If the
length of the divisor is in range, then so is everything else, and no part is
undefined; otherwise both parts are, whatever is divided. The length is in range
if both parts of the divisor are below half of what is not. -/
theorem isNaN_div_eq_not_isFinite_taxicab (z w : Complex Float) (z' w' : Complex Float32) :
    (z.isFinite = true → w.isFinite = true → w.isZero = false →
      (w.IsUsable ↔ w.taxicab.isFinite = true)
        ∧ (z / w).re.isNaN = !w.taxicab.isFinite ∧ (z / w).im.isNaN = !w.taxicab.isFinite
        ∧ (2 * |value w.re| < 2 ^ 1024 → 2 * |value w.im| < 2 ^ 1024 →
          w.taxicab.isFinite = true))
    ∧ (z'.isFinite = true → w'.isFinite = true → w'.isZero = false →
      (w'.IsUsable ↔ w'.taxicab.isFinite = true)
        ∧ (z' / w').re.isNaN = !w'.taxicab.isFinite ∧ (z' / w').im.isNaN = !w'.taxicab.isFinite
        ∧ (2 * |value w'.re| < 2 ^ 128 → 2 * |value w'.im| < 2 ^ 128 →
          w'.taxicab.isFinite = true)) := by
  have hdouble : overflowAt (format Float) = 2 ^ 1024 := overflowAt_eq (by decide)
  have hsingle : overflowAt (format Float32) = 2 ^ 128 := overflowAt_eq (by decide)
  constructor
  · intro hz hw h0
    obtain ⟨hre, him⟩ := isNaN_div_iff hz hw h0
    refine ⟨isUsable_iff hw h0, hre, him, fun hre him => ?_⟩
    rw [← hdouble] at hre him
    exact taxicab_isFinite hw hre him
  · intro hz hw h0
    obtain ⟨hre, him⟩ := isNaN_div_iff hz hw h0
    refine ⟨isUsable_iff hw h0, hre, him, fun hre him => ?_⟩
    rw [← hsingle] at hre him
    exact taxicab_isFinite hw hre him

/-- The number `2 ^ 1023 + 2 ^ 1023 i`, which is not the largest one. -/
def farCorner : Complex Float := ⟨.ofBits 0x7FE0000000000000, .ofBits 0x7FE0000000000000⟩

/-- The number `2 ^ 127 + 2 ^ 127 i` in single precision. -/
def farCorner32 : Complex Float32 := ⟨.ofBits 0x7F000000, .ofBits 0x7F000000⟩

theorem isNaN_div_eq_not_isFinite_taxicab_farCorner :
    (farCorner / ⟨3, -4⟩).re.isNaN = false ∧ (1 / farCorner32).re.isNaN = true := by
  obtain ⟨hdouble, hsingle⟩ :=
    isNaN_div_eq_not_isFinite_taxicab farCorner ⟨3, -4⟩ 1 farCorner32
  constructor
  · exact (hdouble (by decide +kernel) (by decide +kernel) (by decide +kernel)).2.1.trans
      (by decide +kernel)
  · exact (hsingle (by decide +kernel) (by decide +kernel) (by decide +kernel)).2.1.trans
      (by decide +kernel)

/-- A finite number that is not zero, divided by itself. -/
theorem isNaN_farCorner_div_farCorner :
    farCorner.isFinite = true ∧ farCorner.isZero = false
      ∧ (farCorner / farCorner).re.isNaN = true ∧ (farCorner / farCorner).im.isNaN = true := by
  decide +kernel

end DenseNumeric.Complex
