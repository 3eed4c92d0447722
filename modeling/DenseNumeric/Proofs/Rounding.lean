import Mathlib
import DenseNumeric.DType

/-!
# Numbers that rounding leaves alone

A number that a binary format has is not changed when it is rounded to that
format, however its significand is written. Two consequences hold the element
types together: single precision is a part of double precision, and so are
the 32-bit integers. Rounding a component to an element type is therefore
done once and for all, which is `DType.quantize_quantize`.
-/

namespace DenseNumeric.Binary

open Float.Model (Format UnpackedFloat totalExponent)
open Float.Model.UnpackedFloat hiding round

/-! ## Shifting -/

theorem log2_mul_two_pow {m : Nat} (hm : 0 < m) (k : Nat) : (m * 2 ^ k).log2 = m.log2 + k := by
  induction k with
  | zero => rw [Nat.pow_zero, Nat.mul_one, Nat.add_zero]
  | succ k ih =>
      have hpos : m * 2 ^ k ≠ 0 := (Nat.mul_pos hm (Nat.two_pow_pos k)).ne'
      rw [Nat.pow_succ', Nat.mul_left_comm, Nat.log2_two_mul hpos, ih, Nat.add_assoc]

theorem totalExponent_mul_two_pow {m : Nat} (hm : 0 < m) (e : Int) (k : Nat) :
    totalExponent (m * 2 ^ k) (e - k) = totalExponent m e := by
  rw [totalExponent, totalExponent, log2_mul_two_pow hm]
  omega

/-- Zeros at the end of a significand are shifted out without a trace. -/
theorem shiftRight_mul_two_pow (m k : Nat) :
    (⟨m * 2 ^ k, false, false⟩ : ExtendedMantissa) >>> k = ⟨m, false, false⟩ := by
  induction k generalizing m with
  | zero => simp [HShiftRight.hShiftRight, Nat.repeat]
  | succ k ih =>
      have hlast : (⟨2 * m * 2 ^ k, false, false⟩ : ExtendedMantissa) >>> (k + 1)
          = ((⟨2 * m * 2 ^ k, false, false⟩ : ExtendedMantissa) >>> k).shiftRightOne := rfl
      rw [Nat.pow_succ', ← Nat.mul_assoc, Nat.mul_comm m 2, hlast, ih]
      simp [ExtendedMantissa.shiftRightOne]

theorem shiftToExponent_mul_two_pow (m : Nat) (e : Int) (k : Nat) :
    shiftToExponent (m * 2 ^ k) (e - k) .exact e = (⟨m, false, false⟩, e) := by
  have hshift : (e - (e - k)).toNat = k := by omega
  rw [shiftToExponent, hshift, ExtendedMantissa.ofMantissaAndAccuracy, shiftRight_mul_two_pow]
  exact congrArg (Prod.mk _) (Int.sub_add_cancel e k)

theorem decreaseExponent_sub (m : Nat) (e : Int) (k : Nat) :
    decreaseExponent m (e - k) e = (m, e - k) := by
  have hshift : (e - k - e).toNat = 0 := by omega
  rw [decreaseExponent, hshift, Nat.shiftLeft_zero, Int.natCast_zero, Int.sub_zero]

/-! ## Rounding what needs none -/

/-- The exponent of `m * 2 ^ e` is the one that the format asks for. -/
def IsCanonical (fmt : Format) (m : Nat) (e : Int) : Prop :=
  fmt.targetExponent (totalExponent m e) = e

theorem roundWithAccuracy_of_isCanonical {fmt : Format} {m : Nat} {e : Int}
    (h : IsCanonical fmt m e) (hm : 0 < m) (s : Sign) (k : Nat) :
    roundWithAccuracy fmt s (m * 2 ^ k) (e - k) .exact = .finite s m e hm := by
  have first : shiftToTargetExponent fmt (m * 2 ^ k) (e - k) .exact = (⟨m, false, false⟩, e) := by
    rw [shiftToTargetExponent, totalExponent_mul_two_pow hm, h, shiftToExponent_mul_two_pow]
  have second : shiftToTargetExponent fmt m e .exact = (⟨m, false, false⟩, e) := by
    have := shiftToExponent_mul_two_pow m e 0
    rw [Nat.pow_zero, Nat.mul_one, Int.natCast_zero, Int.sub_zero] at this
    rw [shiftToTargetExponent, h, this]
  have exact : (⟨m, false, false⟩ : ExtendedMantissa).roundedMantissa = m := rfl
  simp only [roundWithAccuracy, first, exact, second, dif_neg hm.ne']

/-- A number with a significand too long for the format, but for zeros. -/
theorem round_mul_two_pow {fmt : Format} {m : Nat} {e : Int} (h : IsCanonical fmt m e)
    (hm : 0 < m) (s : Sign) (k : Nat) :
    UnpackedFloat.round fmt s (m * 2 ^ k) (e - k) = .finite s m e hm := by
  have target : fmt.targetExponent (totalExponent m e) = e := h
  simp only [UnpackedFloat.round, totalExponent_mul_two_pow hm, target,
    decreaseExponent_sub, roundWithAccuracy_of_isCanonical h hm]

/-- A number with a significand too short for the format, which is filled up
with zeros. -/
theorem round_of_mul_two_pow {fmt : Format} {m k : Nat} {e : Int}
    (h : IsCanonical fmt (m * 2 ^ k) (e - k)) (hm : 0 < m) (s : Sign) :
    UnpackedFloat.round fmt s m e
      = .finite s (m * 2 ^ k) (e - k) (Nat.mul_pos hm (Nat.two_pow_pos k)) := by
  have target : fmt.targetExponent (totalExponent m e) = e - k := by
    rw [← totalExponent_mul_two_pow hm e k]
    exact h
  have hshift : (e - (e - k)).toNat = k := by omega
  have decrease : decreaseExponent m e (e - k) = (m * 2 ^ k, e - k) := by
    rw [decreaseExponent, hshift, Nat.shiftLeft_eq]
  have done := roundWithAccuracy_of_isCanonical h (Nat.mul_pos hm (Nat.two_pow_pos k)) s 0
  rw [Nat.pow_zero, Nat.mul_one, Int.natCast_zero, Int.sub_zero] at done
  simp only [UnpackedFloat.round, target, decrease, done]

/-! ## Packing -/

/-- The exponents of a format, as they are stored. -/
theorem minExponent_eq (fmt : Format) :
    fmt.minExponent = 1 - (fmt.exponentBias + fmt.mantissaBitsWithoutImplicit) := by
  have : 0 < 2 ^ (fmt.exponentBits - 1) := Nat.two_pow_pos _
  simp only [Format.minExponent, Format.exponentBias, Format.mantissaBits]
  push_cast [Nat.cast_sub (Nat.one_le_iff_ne_zero.2 this.ne')]
  ring

theorem toNat_append_one {w : Nat} (v : BitVec w) : (1#1 ++ v).toNat = 2 ^ w + v.toNat := by
  rw [BitVec.toNat_append, ← Nat.shiftLeft_add_eq_or_of_lt v.isLt]
  simp [Nat.shiftLeft_eq]

theorem isCanonical_of_log2_lt {fmt : Format} {m : Nat}
    (h : m.log2 < fmt.mantissaBits) : IsCanonical fmt m fmt.minExponent := by
  simp only [IsCanonical, Format.targetExponent, totalExponent]
  omega

theorem isCanonical_of_log2_eq {fmt : Format} {m : Nat} {e : Int}
    (h : m.log2 + 1 = fmt.mantissaBits) (he : fmt.minExponent ≤ e) : IsCanonical fmt m e := by
  simp only [IsCanonical, Format.targetExponent, totalExponent]
  omega

/-- An unpacked number is canonical, and within the bounds of its format. -/
theorem isCanonical_of_unpack {fmt : Format} (hfmt : 2 ≤ fmt.exponentBits) {b : BitVec fmt.numBits}
    {s : Sign} {m : Nat} {e : Int} {hm : 0 < m} (h : unpack fmt b = .finite s m e hm) :
    IsCanonical fmt m e ∧ m.log2 < fmt.mantissaBits ∧ fmt.minExponent ≤ e ∧
      e + fmt.exponentBias + fmt.mantissaBitsWithoutImplicit + 1 < 2 ^ fmt.exponentBits := by
  have hmin := minExponent_eq fmt
  have hbits : fmt.mantissaBits = 1 + fmt.mantissaBitsWithoutImplicit := rfl
  unfold unpack at h
  dsimp only at h
  split at h
  · split at h <;> cases h
  · rename_i hlast
    split at h
    · rename_i hzero
      split at h
      · cases h
      · -- a subnormal number: the exponent is the smallest of the format
        obtain ⟨rfl, rfl, rfl⟩ := UnpackedFloat.finite.inj h
        have hlog : (unpackMantissa b).toNat.log2 < fmt.mantissaBitsWithoutImplicit :=
          (Nat.log2_lt hm.ne').2 (unpackMantissa b).isLt
        have he : (((unpackExponent b).toNat : Int)
            - (fmt.exponentBias + fmt.mantissaBitsWithoutImplicit) + 1) = fmt.minExponent := by
          rw [hzero, BitVec.toNat_zero, hmin]
          omega
        have hfour : (2 : Int) ^ 2 ≤ 2 ^ fmt.exponentBits := by
          exact_mod_cast Nat.pow_le_pow_right (n := 2) (by decide) hfmt
        rw [he]
        refine ⟨isCanonical_of_log2_lt (by omega), by omega, le_rfl, ?_⟩
        omega
    · -- a normal number: the significand has all its digits
      rename_i hzero
      obtain ⟨rfl, rfl, rfl⟩ := UnpackedFloat.finite.inj h
      have hlog : (1#1 ++ unpackMantissa b).toNat.log2 = fmt.mantissaBitsWithoutImplicit := by
        rw [toNat_append_one, Nat.log2_eq_iff (by positivity)]
        have := (unpackMantissa b).isLt
        omega
      have hpos : 0 < (unpackExponent b).toNat :=
        Nat.pos_of_ne_zero fun h0 => hzero (BitVec.eq_of_toNat_eq h0)
      have hlt : ((unpackExponent b).toNat : Int) + 1 < 2 ^ fmt.exponentBits := by
        have hne : (unpackExponent b).toNat ≠ 2 ^ fmt.exponentBits - 1 := fun h1 =>
          hlast (BitVec.eq_of_toNat_eq (by
            rw [h1, BitVec.neg_one_eq_allOnes, BitVec.toNat_allOnes]))
        have := (unpackExponent b).isLt
        exact_mod_cast (show (unpackExponent b).toNat + 1 < 2 ^ fmt.exponentBits by omega)
      refine ⟨isCanonical_of_log2_eq (by omega) (by omega), by omega, by omega, ?_⟩
      omega

/-- A normal number of a format is packed without loss. -/
theorem unpack_pack_of_log2_eq {fmt : Format} {m : Nat} {e : Int} (s : Sign) (hm : 0 < m)
    (hlog : m.log2 = fmt.mantissaBitsWithoutImplicit) (hmin : fmt.minExponent ≤ e)
    (hmax : e + fmt.exponentBias + fmt.mantissaBitsWithoutImplicit + 1 < 2 ^ fmt.exponentBits) :
    unpack fmt (pack fmt (.finite s m e hm)) = .finite s m e hm := by
  rw [minExponent_eq] at hmin
  obtain ⟨b, hb⟩ : ∃ b : Nat, (b : Int) = e + fmt.exponentBias + fmt.mantissaBitsWithoutImplicit :=
    ⟨(e + fmt.exponentBias + fmt.mantissaBitsWithoutImplicit).toNat, by omega⟩
  have hlt : b + 1 < 2 ^ fmt.exponentBits := by
    exact_mod_cast hb ▸ hmax
  have hexp : (BitVec.ofNat fmt.exponentBits b).toNat = b := by
    rw [BitVec.toNat_ofNat, Nat.mod_eq_of_lt (by omega)]
  have hzero : BitVec.ofNat fmt.exponentBits b ≠ 0#_ := fun h0 => by
    have := congrArg BitVec.toNat h0
    rw [hexp, BitVec.toNat_zero] at this
    omega
  have hlast : BitVec.ofNat fmt.exponentBits b ≠ -1#_ := fun h1 => by
    have := congrArg BitVec.toNat h1
    rw [hexp, BitVec.neg_one_eq_allOnes, BitVec.toNat_allOnes] at this
    omega
  have hmant : (1#1 ++ BitVec.ofNat fmt.mantissaBitsWithoutImplicit m).toNat = m := by
    obtain ⟨hle, hlt⟩ := (Nat.log2_eq_iff hm.ne').1 hlog
    have hdiv : m / 2 ^ fmt.mantissaBitsWithoutImplicit = 1 :=
      Nat.div_eq_of_lt_le (by omega) (by omega)
    have := Nat.div_add_mod m (2 ^ fmt.mantissaBitsWithoutImplicit)
    rw [toNat_append_one, BitVec.toNat_ofNat]
    rw [hdiv] at this
    omega
  have hpack : pack fmt (.finite s m e hm)
      = packComponents fmt s (BitVec.ofNat _ b) (BitVec.ofNat _ m) := by
    simp only [pack, ← hb, Int.toNat_natCast]
    rw [if_neg (by omega), if_pos (by rw [hlog, Format.mantissaBits, Nat.add_comm])]
  rw [hpack]
  unfold unpack
  simp only [unpackMantissa_packComponents, unpackExponent_packComponents,
    unpackSign_packComponents, Sign.ofBitVec_toBitVec, hzero, hlast, if_false, hmant, hexp]
  congr 1
  omega

@[simp] theorem unpack_packedInfinity (fmt : Format) (s : Sign) :
    unpack fmt (packedInfinity fmt s) = .infinity s := by
  simp [unpack, packedInfinity]

/-! ## Single and double precision -/

/-- A number with a significand of at most 53 digits, away from the ends of
the exponents, is one of double precision. -/
theorem unpack_pack_round {m : Nat} {e : Int} (s : Sign) (hm : 0 < m) (hlog : m.log2 ≤ 52)
    (hmin : -1022 ≤ e) (hmax : e ≤ 900) :
    ∃ k : Nat,
      unpack .binary64 (pack .binary64 (UnpackedFloat.round .binary64 s m e))
        = .finite s (m * 2 ^ k) (e - k) (Nat.mul_pos hm (Nat.two_pow_pos k)) := by
  have hbits : Format.binary64.mantissaBitsWithoutImplicit = 52 := rfl
  have hexp : (2 : Int) ^ Format.binary64.exponentBits = 2048 := by decide
  have hlow : Format.binary64.minExponent = -1074 := by decide
  have hbias : Format.binary64.exponentBias = 1023 := by decide
  have hfull : (m * 2 ^ (52 - m.log2)).log2 = 52 := by
    rw [log2_mul_two_pow hm]
    omega
  refine ⟨52 - m.log2, ?_⟩
  have hcanonical : IsCanonical .binary64 (m * 2 ^ (52 - m.log2)) (e - (52 - m.log2 : Nat)) :=
    isCanonical_of_log2_eq (by rw [hfull]; rfl) (by omega)
  rw [round_of_mul_two_pow hcanonical hm]
  refine unpack_pack_of_log2_eq s _ hfull (by omega) ?_
  omega

/-- What is left of a single-precision number in double precision and back is
the number. -/
theorem roundTo_unpack_pack_roundTo {b : BitVec Format.binary32.numBits} :
    roundTo .binary32 (unpack .binary64 (pack .binary64 (roundTo .binary64 (unpack .binary32 b))))
      = unpack .binary32 b := by
  cases hu : unpack .binary32 b with
  | notANumber => simp [roundTo, pack]
  | infinity s => simp [roundTo, pack]
  | zero s => simp [roundTo, pack]
  | finite s m e hm =>
      obtain ⟨hcanonical, hlog, hmin, hmax⟩ := isCanonical_of_unpack (by decide) hu
      have hbits : Format.binary32.mantissaBits = 24 := rfl
      have hmant : Format.binary32.mantissaBitsWithoutImplicit = 23 := rfl
      have hexp : (2 : Int) ^ Format.binary32.exponentBits = 256 := by decide
      have hlow : Format.binary32.minExponent = -149 := by decide
      have hbias : Format.binary32.exponentBias = 127 := by decide
      obtain ⟨k, hk⟩ := unpack_pack_round (m := m) (e := e) s hm (by omega) (by omega) (by omega)
      simp only [roundTo, hk, round_mul_two_pow hcanonical hm]

theorem narrow_widen (y : Float32) : narrow (widen y) = y := by
  have hround : narrow (widen y) = .ofModel (.pack y.toModel.unpack) :=
    congrArg (fun u => Float32.ofModel (.pack u)) roundTo_unpack_pack_roundTo
  rw [hround, ← Float32.toBits_inj, ← UInt32.toBitVec_inj]
  exact pack_unpack_of_valid y.toModel.valid

/-! ## Integers -/

theorem ofInt_eq_round {n : Int} (hn : n ≠ 0) :
    ∃ s : Sign, s.apply n.natAbs = n ∧
      UnpackedFloat.ofInt .binary64 n = UnpackedFloat.round .binary64 s n.natAbs 0 := by
  rcases lt_or_gt_of_ne hn with hneg | hpos
  · refine ⟨.negative, by simp only [Sign.apply]; omega, ?_⟩
    have hcompare : compare n 0 = .lt := by rwa [Int.compare_eq_lt]
    have habs : (-n).toNat = n.natAbs := by omega
    simp only [UnpackedFloat.ofInt, UnpackedFloat.normalize, hcompare, habs]
  · refine ⟨.positive, by simp only [Sign.apply]; omega, ?_⟩
    have hcompare : compare n 0 = .gt := by rwa [Int.compare_eq_gt]
    have habs : n.toNat = n.natAbs := by omega
    simp only [UnpackedFloat.ofInt, UnpackedFloat.normalize, hcompare, habs]

/-- An integer of at most 53 digits in double precision is the positive zero,
or a finite number with its sign and digits. -/
theorem unpack_ofInt {n : Int} (h : n.natAbs < 2 ^ 53) :
    n = 0 ∧ (ofInt n).toModel.unpack = .zero .positive ∨
      ∃ (s : Sign) (k : Nat) (hm : 0 < n.natAbs * 2 ^ k), s.apply n.natAbs = n ∧
        (ofInt n).toModel.unpack = .finite s (n.natAbs * 2 ^ k) (0 - k) hm := by
  have hunpack : (ofInt n).toModel.unpack
      = unpack .binary64 (pack .binary64 (UnpackedFloat.ofInt .binary64 n)) := rfl
  by_cases hn : n = 0
  · exact .inl ⟨hn, by rw [hunpack, hn]; exact unpack_packedZero⟩
  · have hpos : 0 < n.natAbs := Int.natAbs_pos.2 hn
    have hlog : n.natAbs.log2 < 53 := (Nat.log2_lt hpos.ne').2 h
    obtain ⟨s, happly, hround⟩ := ofInt_eq_round hn
    obtain ⟨k, hk⟩ := unpack_pack_round (e := 0) s hpos (by omega) (by omega) (by omega)
    exact .inr ⟨s, k, Nat.mul_pos hpos (Nat.two_pow_pos k), happly, by rw [hunpack, hround, hk]⟩

/-- The integer part of an integer in double precision is the integer. -/
theorem toInt_unpack_ofInt {n lo hi : Int} (h : n.natAbs < 2 ^ 53) :
    (ofInt n).toModel.unpack.toInt lo hi = n := by
  rcases unpack_ofInt h with ⟨rfl, hzero⟩ | ⟨s, k, hm, happly, hfinite⟩
  · rw [hzero, toInt]
  · simp only [hfinite, toInt, roundToInt, decreaseExponent_sub, shiftToExponent_mul_two_pow,
      happly]

theorem toInt32_eq (x : Float) :
    toInt32 x = max (-2 ^ 31) (min (2 ^ 31 - 1)
      (x.toModel.unpack.toInt (-2 ^ 31) (2 ^ 31 - 1))) := by
  have hlo : Int32.minValue.toInt = -2 ^ 31 := by decide
  have hhi : Int32.maxValue.toInt = 2 ^ 31 - 1 := by decide
  rw [toInt32, truncate, hlo, hhi]

theorem toInt32_mem (x : Float) : -2 ^ 31 ≤ toInt32 x ∧ toInt32 x < 2 ^ 31 := by
  rw [toInt32_eq]
  omega

theorem toInt32_ofInt {n : Int} (hmin : -2 ^ 31 ≤ n) (hmax : n < 2 ^ 31) :
    toInt32 (ofInt n) = n := by
  rw [toInt32_eq, toInt_unpack_ofInt (by omega)]
  omega

end DenseNumeric.Binary

namespace DenseNumeric.DType

/-! ## Element types -/

/-- Every element type has the values that its components are rounded to. -/
@[simp] theorem quantize_quantize (d : DType) (x : Float) :
    d.quantize (d.quantize x) = d.quantize x := by
  cases d with
  | f64 => rfl
  | c128 => rfl
  | f32 => rw [quantize, quantize, Binary.narrow_widen]
  | c64 => rw [quantize, quantize, Binary.narrow_widen]
  | i32 =>
      have ⟨hmin, hmax⟩ := Binary.toInt32_mem x
      rw [quantize, quantize, Binary.toInt32_ofInt hmin hmax]

@[simp] theorem quantize_zero (d : DType) : d.quantize 0 = 0 := by
  cases d <;> decide

end DenseNumeric.DType
