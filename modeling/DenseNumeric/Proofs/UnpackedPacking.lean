import Mathlib
import DenseNumeric.Proofs.UnpackedRounding

/-!
# Comparing and packing unpacked numbers

Numbers in canonical form are compared by their exponents first, which is the
order of the real numbers that they stand for. Packing such a number loses
nothing, unless it is too large for the exponents of the format and becomes an
infinity.
-/

namespace DenseNumeric.Binary

open Float.Model (Format UnpackedFloat)
open Float.Model.UnpackedFloat hiding round

variable {fmt : Format} {u v : UnpackedFloat}

/-! ## Comparison -/

/-- Of two numbers in canonical form, the one with the larger exponent is the
larger one. -/
theorem mul_two_zpow_lt_of_exponent_lt {m m' : ℕ} {e e' : ℤ} (hlog : m.log2 < fmt.mantissaBits)
    (hm' : 0 < m') (he : fmt.minExponent ≤ e) (h' : IsCanonical fmt m' e') (hlt : e < e') :
    (m * 2 ^ e : ℝ) < m' * 2 ^ e' := by
  have hfull := (log2_add_one_of_isCanonical h').resolve_left (by omega)
  have hm : m < 2 ^ fmt.mantissaBits := by
    rcases Nat.eq_zero_or_pos m with rfl | hpos
    · exact Nat.two_pow_pos _
    · exact (Nat.log2_lt hpos.ne').1 hlog
  have hm'' : 2 ^ fmt.mantissaBits ≤ m' * 2 := by
    rw [← hfull, pow_succ]
    exact Nat.mul_le_mul_right 2 (Nat.log2_self_le hm'.ne')
  calc (m * 2 ^ e : ℝ) < m' * 2 * 2 ^ e :=
        mul_lt_mul_of_pos_right (by exact_mod_cast hm.trans_le hm'') (zpow_pos two_pos e)
    _ = m' * 2 ^ (e + 1) := by rw [zpow_add_one₀ two_ne_zero]; ring
    _ ≤ m' * 2 ^ e' := mul_le_mul_of_nonneg_left
        (zpow_le_zpow_right₀ one_le_two (by omega)) (Nat.cast_nonneg _)

theorem compares_finite {m m' : ℕ} {e e' : ℤ} (hm : 0 < m) (hm' : 0 < m')
    (h : m.log2 < fmt.mantissaBits ∧ fmt.minExponent ≤ e ∧ IsCanonical fmt m e)
    (h' : m'.log2 < fmt.mantissaBits ∧ fmt.minExponent ≤ e' ∧ IsCanonical fmt m' e') :
    ((compare e e').then (compare m m')).Compares (m * 2 ^ e : ℝ) (m' * 2 ^ e') := by
  cases he : compare e e' with
  | lt =>
      rw [Int.compare_eq_lt] at he
      exact mul_two_zpow_lt_of_exponent_lt h.1 hm' h.2.1 h'.2.2 he
  | gt =>
      rw [Int.compare_eq_gt] at he
      exact mul_two_zpow_lt_of_exponent_lt h'.1 hm h'.2.1 h.2.2 he
  | eq =>
      rw [Int.compare_eq_eq] at he
      have hpow : (0 : ℝ) < 2 ^ e' := zpow_pos two_pos e'
      rw [he]
      show (compare m m').Compares _ _
      cases hcompare : compare m m' with
      | lt =>
          rw [Nat.compare_eq_lt] at hcompare
          exact mul_lt_mul_of_pos_right (by exact_mod_cast hcompare) hpow
      | eq =>
          rw [Nat.compare_eq_eq] at hcompare
          exact congrArg (fun k : ℕ => (k * 2 ^ e' : ℝ)) hcompare
      | gt =>
          rw [Nat.compare_eq_gt] at hcompare
          exact mul_lt_mul_of_pos_right (by exact_mod_cast hcompare) hpow

theorem compares_swap_neg {o : Ordering} {x y : ℝ} (h : o.Compares x y) :
    o.swap.Compares (-x) (-y) := by
  cases o with
  | lt => exact neg_lt_neg h
  | eq => exact congrArg _ h
  | gt => exact neg_lt_neg h

/-- Comparison of unpacked numbers is that of the real numbers. -/
theorem exists_compare_eq (hu : IsProper fmt u) (hv : IsProper fmt v) :
    ∃ o : Ordering, u.compare v = some o ∧ o.Compares (valueOf u) (valueOf v) := by
  have pos {m : ℕ} (hm : 0 < m) (e : ℤ) : (0 : ℝ) < m * 2 ^ e :=
    mul_pos (by exact_mod_cast hm) (zpow_pos two_pos e)
  have neg {m : ℕ} (hm : 0 < m) (e : ℤ) : -(m * 2 ^ e : ℝ) < 0 := neg_neg_of_pos (pos hm e)
  rcases hu.zero_or_finite with ⟨s, rfl⟩ | ⟨s, m, e, hm, rfl⟩ <;>
    rcases hv.zero_or_finite with ⟨s', rfl⟩ | ⟨s', m', e', hm', rfl⟩
  · exact ⟨.eq, rfl, rfl⟩
  · cases s' with
    | positive => exact ⟨.lt, rfl, pos hm' e'⟩
    | negative => exact ⟨.gt, rfl, neg hm' e'⟩
  · cases s with
    | positive => exact ⟨.gt, rfl, pos hm e⟩
    | negative => exact ⟨.lt, rfl, neg hm e⟩
  · have hcompares := compares_finite hm hm' hu hv
    cases s with
    | positive =>
        cases s' with
        | positive => exact ⟨_, rfl, hcompares⟩
        | negative => exact ⟨.gt, rfl, (neg hm' e').trans (pos hm e)⟩
    | negative =>
        cases s' with
        | positive => exact ⟨.lt, rfl, (neg hm e).trans (pos hm' e')⟩
        | negative => exact ⟨_, rfl, compares_swap_neg hcompares⟩

theorem lt_iff (hu : IsProper fmt u) (hv : IsProper fmt v) :
    u.lt v = true ↔ valueOf u < valueOf v := by
  obtain ⟨o, ho, hcompares⟩ := exists_compare_eq hu hv
  rw [UnpackedFloat.lt, ho, ← hcompares.eq_lt]
  cases o <;> decide

theorem beq_iff (hu : IsProper fmt u) (hv : IsProper fmt v) :
    u.beq v = true ↔ valueOf u = valueOf v := by
  obtain ⟨o, ho, hcompares⟩ := exists_compare_eq hu hv
  rw [UnpackedFloat.beq, ho, ← hcompares.eq_eq]
  cases o <;> decide

/-! ## Packing -/

theorem isProper_unpack (hfmt : 2 ≤ fmt.exponentBits) {b : BitVec fmt.numBits}
    (h : (unpack fmt b).isFinite = true) : IsProper fmt (unpack fmt b) := by
  cases hu : unpack fmt b with
  | finite s m e hm =>
      obtain ⟨hcanonical, hlog, hmin, -⟩ := isCanonical_of_unpack hfmt hu
      exact ⟨hlog, hmin, hcanonical⟩
  | zero s => trivial
  | infinity s =>
      rw [hu] at h
      cases h
  | notANumber =>
      rw [hu] at h
      cases h

theorem four_le_two_pow (hfmt : 2 ≤ fmt.exponentBits) : 4 ≤ 2 ^ fmt.exponentBits :=
  Nat.pow_le_pow_right (n := 2) (by decide) hfmt

/-- A subnormal number of a format is packed without loss. -/
theorem unpack_pack_of_log2_lt (hfmt : 2 ≤ fmt.exponentBits) {m : ℕ} (s : Sign) (hm : 0 < m)
    (hlog : m.log2 < fmt.mantissaBitsWithoutImplicit) :
    unpack fmt (pack fmt (.finite s m fmt.minExponent hm)) = .finite s m fmt.minExponent hm := by
  have hmin := minExponent_eq fmt
  have hfour := four_le_two_pow hfmt
  have hlast : (0#_ : BitVec fmt.exponentBits) ≠ -1#_ := fun h0 => by
    have := congrArg BitVec.toNat h0
    rw [BitVec.toNat_zero, BitVec.neg_one_eq_allOnes, BitVec.toNat_allOnes] at this
    omega
  have hlt : m < 2 ^ fmt.mantissaBitsWithoutImplicit := (Nat.log2_lt hm.ne').1 hlog
  have hmant : (BitVec.ofNat fmt.mantissaBitsWithoutImplicit m).toNat = m := by
    rw [BitVec.toNat_ofNat, Nat.mod_eq_of_lt hlt]
  have hzero : BitVec.ofNat fmt.mantissaBitsWithoutImplicit m ≠ 0#_ := fun h0 => by
    have := congrArg BitVec.toNat h0
    rw [hmant, BitVec.toNat_zero] at this
    omega
  have hpack : pack fmt (.finite s m fmt.minExponent hm)
      = packComponents fmt s 0#_ (BitVec.ofNat _ m) := by
    simp only [pack]
    rw [if_neg (by omega), if_neg (by rw [Format.mantissaBits]; omega)]
  rw [hpack]
  unfold unpack
  simp only [unpackMantissa_packComponents, unpackExponent_packComponents,
    unpackSign_packComponents, Sign.ofBitVec_toBitVec, hzero, hlast, if_false, if_true, dif_neg,
    not_false_eq_true, hmant, BitVec.toNat_zero]
  congr 1
  omega

/-- The numbers from here on are too large for the exponents of the format. -/
noncomputable def overflowAt (fmt : Format) : ℝ :=
  ((2 : ℕ) : ℝ) ^ ((2 : ℤ) ^ fmt.exponentBits - 1 - fmt.exponentBias)

/-- A proper number is packed without loss, unless it is too large, and then
it is packed as an infinity. -/
theorem unpack_pack (hfmt : 2 ≤ fmt.exponentBits) (hu : IsProper fmt u) :
    (|valueOf u| < overflowAt fmt ∧ unpack fmt (pack fmt u) = u) ∨
      (overflowAt fmt ≤ |valueOf u| ∧ ∃ s, unpack fmt (pack fmt u) = .infinity s ∧
        valueOf u = signed s |valueOf u|) := by
  rcases hu.zero_or_finite with ⟨s, rfl⟩ | ⟨s, m, e, hm, rfl⟩
  · refine .inl ⟨?_, unpack_packedZero⟩
    rw [valueOf_zero, abs_zero]
    exact zpow_pos two_pos _
  · obtain ⟨hlog, he, hcanonical⟩ := hu
    have hmin := minExponent_eq fmt
    have hbits : fmt.mantissaBits = 1 + fmt.mantissaBitsWithoutImplicit := rfl
    have hfour : (4 : ℤ) ≤ 2 ^ fmt.exponentBits := by exact_mod_cast four_le_two_pow hfmt
    have hdigits := log2_add_one_of_isCanonical hcanonical
    have hnonneg : (0 : ℝ) ≤ m * 2 ^ e := by positivity
    have habs : |valueOf (.finite s m e hm)| = m * 2 ^ e := by
      rw [valueOf_finite, abs_signed, abs_of_nonneg hnonneg]
    rw [habs]
    by_cases hmax : e + fmt.exponentBias + fmt.mantissaBitsWithoutImplicit + 1
        < 2 ^ fmt.exponentBits
    · left
      constructor
      · have hm' : (m : ℝ) < 2 ^ fmt.mantissaBits := by
          exact_mod_cast (Nat.log2_lt hm.ne').1 hlog
        calc (m * 2 ^ e : ℝ) < 2 ^ fmt.mantissaBits * 2 ^ e :=
              mul_lt_mul_of_pos_right hm' (zpow_pos two_pos e)
          _ = 2 ^ (fmt.mantissaBits + e) := by rw [zpow_add₀ two_ne_zero, zpow_natCast]
          _ ≤ overflowAt fmt := zpow_le_zpow_right₀ one_le_two (by omega)
      · rcases Nat.lt_or_ge m.log2 fmt.mantissaBitsWithoutImplicit with hlt | hge
        · obtain rfl := hdigits.resolve_right (by omega)
          exact unpack_pack_of_log2_lt hfmt s hm hlt
        · exact unpack_pack_of_log2_eq s hm (by omega) he hmax
    · right
      have hlarge : 2 ^ fmt.mantissaBitsWithoutImplicit ≤ m := by
        have := hdigits.resolve_left (by omega)
        exact (Nat.le_log2 hm.ne').1 (by omega)
      refine ⟨?_, s, ?_, rfl⟩
      · calc overflowAt fmt ≤ 2 ^ (fmt.mantissaBitsWithoutImplicit + e) :=
              zpow_le_zpow_right₀ one_le_two (by omega)
          _ = 2 ^ fmt.mantissaBitsWithoutImplicit * 2 ^ e := by
              rw [zpow_add₀ two_ne_zero, zpow_natCast]
          _ ≤ m * 2 ^ e := mul_le_mul_of_nonneg_right (by exact_mod_cast hlarge)
              (zpow_pos two_pos e).le
      · have hpack : pack fmt (.finite s m e hm) = packedInfinity fmt s := by
          have hbig : (2 : ℤ) ^ fmt.exponentBits
              ≤ (e + fmt.exponentBias + fmt.mantissaBitsWithoutImplicit).toNat + 1 := by omega
          simp only [pack]
          rw [if_pos (by exact_mod_cast hbig)]
        rw [hpack, unpack_packedInfinity]

end DenseNumeric.Binary
