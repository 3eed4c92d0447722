import DenseNumeric.Proofs.FloatReading

/-!
# Doubles cut down to integers

A double becomes a 32-bit integer in two steps: what is behind the point is
dropped, and what is out of range is moved to the nearer end. The rounding of
a result does not show after that. An integer in range is a double and not
rounded at all, and one that is out of range is rounded to a double that is
out of range too. A quotient of integers stays below the next integer, as
there is a double between the two (`exists_isNumber_between`).
-/

namespace DenseNumeric.Binary

open Float.Model (Format UnpackedFloat)
open Float.Model.UnpackedFloat hiding round

/-! ## Integer parts -/

/-- The integer part of a real number, toward zero. -/
noncomputable def integerPart (x : ℝ) : ℤ := if 0 ≤ x then ⌊x⌋ else ⌈x⌉

/-- The 32-bit integer that is nearest to `n`. -/
def saturate (n : Int) : Int := max (-2 ^ 31) (min (2 ^ 31 - 1) n)

section IntegerPart

variable {x : ℝ}

theorem integerPart_of_nonneg (hx : 0 ≤ x) : integerPart x = ⌊x⌋ := if_pos hx

theorem integerPart_neg (x : ℝ) : integerPart (-x) = -integerPart x := by
  unfold integerPart
  rcases lt_trichotomy x 0 with hx | rfl | hx
  · rw [if_pos (neg_nonneg.2 hx.le), if_neg (not_le.2 hx), Int.floor_neg]
  · simp
  · rw [if_neg (not_le.2 (neg_neg_of_pos hx)), if_pos hx.le, Int.ceil_neg]

theorem integerPart_intCast (n : ℤ) : integerPart n = n := by
  unfold integerPart
  split_ifs
  · exact Int.floor_intCast n
  · exact Int.ceil_intCast n

theorem integerPart_signed (s : Sign) (hx : 0 ≤ x) :
    integerPart (signed s x) = s.apply ⌊x⌋ := by
  rw [← integerPart_of_nonneg hx]
  cases s with
  | negative => exact integerPart_neg x
  | positive => rfl

theorem le_integerPart {n : ℕ} (h : n ≤ x) : n ≤ integerPart x := by
  rw [integerPart_of_nonneg (n.cast_nonneg.trans h)]
  exact Int.le_floor.2 (by exact_mod_cast h)

end IntegerPart

/-- Digits that are shifted out are what is behind the point. -/
theorem roundToInt_eq (s : Sign) (m : ℕ) (e : ℤ) :
    roundToInt s m e = integerPart (signed s (m * 2 ^ e)) := by
  simp only [roundToInt, decreaseExponent, shiftToExponent, ExtendedMantissa.ofMantissaAndAccuracy,
    Nat.shiftLeft_eq, sub_zero]
  rw [integerPart_signed s (by positivity)]
  set k := (0 - (e - e.toNat)).toNat
  have hpow : (2 : ℝ) ^ e = 2 ^ e.toNat / 2 ^ k := by
    rw [← zpow_natCast, ← zpow_natCast, ← zpow_sub₀ two_ne_zero]
    congr 1
    omega
  have hvalue : (m : ℝ) * 2 ^ e = ((m * 2 ^ e.toNat : ℕ) : ℝ) / 2 ^ k := by
    rw [hpow, ← mul_div_assoc]
    push_cast
    rfl
  have hlocated : Locates ((m * 2 ^ e.toNat : ℕ) : ℝ)
      (⟨m * 2 ^ e.toNat, false, false⟩ : ExtendedMantissa).mantissa .exact := rfl
  obtain ⟨hle, hlt⟩ := (hlocated.shiftRight k).le_lt
  rw [hvalue]
  congr 1
  exact (Int.floor_eq_iff.2 ⟨by exact_mod_cast hle, by exact_mod_cast hlt⟩).symm

theorem toInt_of_isProper {fmt : Format} {u : UnpackedFloat} (hu : IsProper fmt u) (lo hi : ℤ) :
    u.toInt lo hi = integerPart (valueOf u) := by
  rcases hu.zero_or_finite with ⟨s, rfl⟩ | ⟨s, m, e, hm, rfl⟩
  · rw [valueOf_zero]
    exact (integerPart_intCast 0).symm.trans (by rw [Int.cast_zero])
  · exact roundToInt_eq s m e

/-! ## Doubles -/

section Doubles

variable {x y : Float}

theorem toInt32_eq_saturate (x : Float) :
    toInt32 x = saturate (x.toModel.unpack.toInt (-2 ^ 31) (2 ^ 31 - 1)) :=
  toInt32_eq x

theorem toInt32_of_isFinite (hx : x.isFinite = true) :
    toInt32 x = saturate (integerPart (toReal x)) := by
  rw [toInt32_eq_saturate, toInt_of_isProper (isProper_of_isFinite hx)]
  rfl

theorem isNumber_intCast {n : ℤ} (h : |n| ≤ 2 ^ 53) : IsNumber .binary64 n := by
  rcases h.lt_or_eq with hlt | heq
  · exact isNumber_iff.2 ⟨n, 0, hlt, by decide, by rw [zpow_zero, mul_one]⟩
  · have hlast : IsNumber .binary64 ((2 ^ 53 : ℤ) : ℝ) := by
      have : IsNumber .binary64 (2 ^ ((53 : ℕ) : ℤ)) := isNumber_two_zpow (by decide)
      rw [zpow_natCast] at this
      exact_mod_cast this
    rcases eq_or_eq_neg_of_abs_eq heq with rfl | rfl
    · exact hlast
    · rw [Int.cast_neg]
      exact hlast.neg

theorem abs_intCast_lt_safeBound {n : ℤ} (h : |n| ≤ 2 ^ 62) : |(n : ℝ)| < safeBound := by
  calc |(n : ℝ)| ≤ 2 ^ 62 := by exact_mod_cast h
    _ < safeBound := two_pow_lt_safeBound (by decide)

/-- The rounding of an integer does not show in 32 bits. -/
theorem RoundsTo.toInt32_eq {n : ℤ} (h : RoundsTo n y) : toInt32 y = saturate n := by
  have hend : IsNumber .binary64 ((2 ^ 31 : ℕ) : ℝ) := isNumber_natCast (by decide)
  rw [toInt32_of_isFinite h.isFinite]
  by_cases hn : |n| ≤ 2 ^ 53
  · rw [h.of_isNumber (isNumber_intCast hn), integerPart_intCast]
  rcases le_total 0 n with hpos | hneg
  · rw [abs_of_nonneg hpos] at hn
    have hlarge : ((2 ^ 31 : ℕ) : ℝ) ≤ n := by exact_mod_cast (show (2 ^ 31 : ℤ) ≤ n by omega)
    have := le_integerPart (h.isNearest.ge_of_ge hend hlarge)
    simp only [saturate]
    omega
  · rw [abs_of_nonpos hneg] at hn
    have hlarge : ((2 ^ 31 : ℕ) : ℝ) ≤ -n := by exact_mod_cast (show (2 ^ 31 : ℤ) ≤ -n by omega)
    have := le_integerPart (h.isNearest.neg.ge_of_ge hend hlarge)
    rw [integerPart_neg] at this
    simp only [saturate]
    omega

end Doubles

/-! ## Integers held in doubles -/

/-- A double that stands for an integer. -/
structure IsInteger (x : Float) (n : ℤ) : Prop where
  isFinite : x.isFinite = true
  toReal_eq : toReal x = n

section Integers

variable {x y : Float} {m n : ℤ}

theorem RoundsTo.isInteger (h : RoundsTo n x) (hn : |n| ≤ 2 ^ 53) : IsInteger x n :=
  ⟨h.isFinite, h.of_isNumber (isNumber_intCast hn)⟩

theorem IsInteger.ofInt (hn : |n| ≤ 2 ^ 53) : IsInteger (ofInt n) n := by
  have hround : Rounds n (Binary.ofInt n) := (ofInt_isRounded .binary64 n).rounds rfl
  exact (hround.roundsTo (abs_intCast_lt_safeBound (hn.trans (by decide)))).isInteger hn

theorem IsInteger.zero : IsInteger 0 0 := ⟨isFinite_zero, by rw [toReal_zero, Int.cast_zero]⟩

theorem IsInteger.toInt32_eq (h : IsInteger x n) : toInt32 x = saturate n := by
  rw [toInt32_of_isFinite h.isFinite, h.toReal_eq, integerPart_intCast]

theorem IsInteger.add (hx : IsInteger x m) (hy : IsInteger y n) (h : |m + n| ≤ 2 ^ 62) :
    RoundsTo (m + n : ℤ) (x + y) := by
  have hround := rounds_add hx.isFinite hy.isFinite
  rw [hx.toReal_eq, hy.toReal_eq, ← Int.cast_add] at hround
  exact hround.roundsTo (abs_intCast_lt_safeBound h)

theorem IsInteger.sub (hx : IsInteger x m) (hy : IsInteger y n) (h : |m - n| ≤ 2 ^ 62) :
    RoundsTo (m - n : ℤ) (x - y) := by
  have hround := rounds_sub hx.isFinite hy.isFinite
  rw [hx.toReal_eq, hy.toReal_eq, ← Int.cast_sub] at hround
  exact hround.roundsTo (abs_intCast_lt_safeBound h)

theorem IsInteger.mul (hx : IsInteger x m) (hy : IsInteger y n) (h : |m * n| ≤ 2 ^ 62) :
    RoundsTo (m * n : ℤ) (x * y) := by
  have hround := rounds_mul hx.isFinite hy.isFinite
  rw [hx.toReal_eq, hy.toReal_eq, ← Int.cast_mul] at hround
  exact hround.roundsTo (abs_intCast_lt_safeBound h)

theorem IsInteger.div (hx : IsInteger x m) (hy : IsInteger y n) (hn : n ≠ 0) (h : |m| ≤ 2 ^ 62) :
    RoundsTo (m / n) (x / y) := by
  have hround := rounds_div hx.isFinite hy.isFinite (by rw [hy.toReal_eq]; exact_mod_cast hn)
  rw [hx.toReal_eq, hy.toReal_eq] at hround
  refine hround.roundsTo (lt_of_le_of_lt ?_ (abs_intCast_lt_safeBound h))
  have hone : (1 : ℝ) ≤ |(n : ℝ)| := by exact_mod_cast Int.one_le_abs hn
  rw [abs_div]
  exact div_le_self (abs_nonneg _) hone

end Integers

/-! ## Quotients of integers -/

/-- There is a double between a quotient and the next integer: one that is
nearer to that integer than the divisor allows the quotient to be. -/
theorem exists_isNumber_between {a b : ℕ} (hb : 0 < b) (ha : a ≤ 2 ^ 31) (hb' : b ≤ 2 ^ 31) :
    ∃ z : ℝ, IsNumber .binary64 z ∧ a / b ≤ z ∧ z < (a / b : ℕ) + 1 := by
  set q := a / b
  have hlow : q * b ≤ a := Nat.div_mul_le_self a b
  have hhigh : a < (q + 1) * b := Nat.lt_mul_of_div_lt (Nat.lt_succ_self q) hb
  -- the least power of two above the divisor
  set k := b.log2 + 1 with hk
  have hbk : b < 2 ^ k := Nat.lt_log2_self
  have hkb : 2 ^ k ≤ 2 * b := by
    rw [hk, pow_succ']
    exact Nat.mul_le_mul_left 2 (Nat.log2_self_le hb.ne')
  have hk32 : k ≤ 32 := (Nat.log2_lt hb.ne').2 (by omega)
  obtain ⟨m, hm⟩ : ∃ m, m + 1 = (q + 1) * 2 ^ k :=
    ⟨_, Nat.sub_add_cancel (Nat.mul_pos q.succ_pos (Nat.two_pow_pos k))⟩
  have hsize : m < 2 ^ 53 := by
    have : (q + 1) * 2 ^ k ≤ 2 * (q * b + b) := by
      calc (q + 1) * 2 ^ k ≤ (q + 1) * (2 * b) := Nat.mul_le_mul_left _ hkb
        _ = 2 * (q * b + b) := by ring
    omega
  have hmin : Format.binary64.minExponent = -1074 := by decide
  have hz := isNumber_natCast_mul_two_zpow hsize (e := -k) (by omega)
  rw [zpow_neg, zpow_natCast, ← div_eq_mul_inv] at hz
  have hpow : (0 : ℝ) < 2 ^ k := by positivity
  refine ⟨m / 2 ^ k, hz, ?_, ?_⟩
  · have : a * 2 ^ k + 2 ^ k ≤ m * b + b := by
      calc a * 2 ^ k + 2 ^ k = (a + 1) * 2 ^ k := by ring
        _ ≤ (q + 1) * b * 2 ^ k := Nat.mul_le_mul_right _ hhigh
        _ = (m + 1) * b := by rw [hm]; ring
        _ = m * b + b := by ring
    rw [div_le_div_iff₀ (by exact_mod_cast hb) hpow]
    exact_mod_cast (show a * 2 ^ k ≤ m * b by omega)
  · rw [div_lt_iff₀ hpow]
    exact_mod_cast (show m < (q + 1) * 2 ^ k by omega)

/-- A rounded quotient does not reach the next integer. -/
theorem IsNearest.floor_div {a b : ℕ} {r : ℝ} (h : IsNearest .binary64 (a / b) r) (hb : 0 < b)
    (ha : a ≤ 2 ^ 31) (hb' : b ≤ 2 ^ 31) : ⌊r⌋ = (a / b : ℕ) := by
  have hbpos : (0 : ℝ) < b := by exact_mod_cast hb
  have hqa : a / b ≤ a := Nat.div_le_self a b
  obtain ⟨z, hz, habove, hbelow⟩ := exists_isNumber_between hb ha hb'
  refine Int.floor_eq_iff.2 ⟨?_, ?_⟩
  · refine h.ge_of_ge (isNumber_natCast (by omega)) ((le_div_iff₀ hbpos).2 ?_)
    exact_mod_cast Nat.div_mul_le_self a b
  · exact_mod_cast (h.le_of_le hz habove).trans_lt hbelow

/-- A quotient of integers, rounded and cut down, is the quotient toward zero. -/
theorem IsNearest.integerPart_div {m n : ℤ} {r : ℝ} (h : IsNearest .binary64 (m / n) r)
    (hn0 : n ≠ 0) (hm : |m| ≤ 2 ^ 31) (hn : |n| ≤ 2 ^ 31) : integerPart r = m.tdiv n := by
  have same {a b : ℕ} {r : ℝ} (h : IsNearest .binary64 (a / b) r) (hb : 0 < b)
      (ha : a ≤ 2 ^ 31) (hb' : b ≤ 2 ^ 31) : integerPart r = (a : ℤ).tdiv b := by
    rw [integerPart_of_nonneg (h.nonneg (by positivity)), h.floor_div hb ha hb']
    rfl
  have opposite {a b : ℕ} {r : ℝ} (h : IsNearest .binary64 (-(a / b)) r) (hb : 0 < b)
      (ha : a ≤ 2 ^ 31) (hb' : b ≤ 2 ^ 31) : integerPart r = -(a : ℤ).tdiv b := by
    have hneg := h.neg
    rw [neg_neg] at hneg
    rw [← same hneg hb ha hb', integerPart_neg, neg_neg]
  obtain ⟨a, rfl | rfl⟩ := m.eq_nat_or_neg <;> obtain ⟨b, rfl | rfl⟩ := n.eq_nat_or_neg <;>
    simp only [abs_neg, Nat.abs_cast, Int.cast_neg, Int.cast_natCast, neg_ne_zero, div_neg,
      neg_div, neg_neg, Int.neg_tdiv, Int.tdiv_neg] at *
  · exact same h (by omega) (by omega) (by omega)
  · exact opposite h (by omega) (by omega) (by omega)
  · exact opposite h (by omega) (by omega) (by omega)
  · exact same h (by omega) (by omega) (by omega)

section Quotients

variable {m n : ℤ}

theorem RoundsTo.toInt32_div {y : Float} (h : RoundsTo (m / n) y) (hn0 : n ≠ 0)
    (hm : |m| ≤ 2 ^ 31) (hn : |n| ≤ 2 ^ 31) : toInt32 y = saturate (m.tdiv n) := by
  rw [toInt32_of_isFinite h.isFinite, h.isNearest.integerPart_div hn0 hm hn]

/-- A quotient by zero is an infinity, or undefined. -/
theorem toInt32_div_zero (h : |m| ≤ 2 ^ 31) :
    toInt32 (ofInt m / ofInt 0) = if 0 < m then 2 ^ 31 - 1 else if m < 0 then -2 ^ 31 else 0 := by
  have hzero : (ofInt 0).toModel.unpack = .zero .positive := unpack_packedZero
  have hunpack : (ofInt m / ofInt 0).toModel.unpack = unpack .binary64 (pack .binary64
      (UnpackedFloat.div .binary64 (ofInt m).toModel.unpack (ofInt 0).toModel.unpack)) := rfl
  obtain ⟨hlo, hhi⟩ := abs_le.1 h
  rw [toInt32_eq_saturate, hunpack, hzero]
  rcases unpack_ofInt (n := m) (by omega) with ⟨rfl, hm⟩ | ⟨s, k, hpos, happly, hm⟩
  · have hnan : unpack .binary64 (pack .binary64 .notANumber) = .notANumber := by simp [pack]
    rw [hm, UnpackedFloat.div, hnan]
    rfl
  · rw [hm, UnpackedFloat.div, pack, unpack_packedInfinity]
    have hm0 : 0 < m.natAbs := Nat.pos_of_mul_pos_right hpos
    cases s with
    | negative =>
        have hneg : m < 0 := by
          have : -(m.natAbs : ℤ) = m := happly
          omega
        rw [if_neg (by omega), if_pos hneg]
        rfl
    | positive =>
        have : (m.natAbs : ℤ) = m := happly
        rw [if_pos (by omega)]
        rfl

end Quotients

end DenseNumeric.Binary
