import Mathlib
import DenseNumeric.Binary.Formats
import DenseNumeric.Proofs.ScaledDivisors
import DenseNumeric.Proofs.UnpackedOperations
import DenseNumeric.Proofs.UnpackedPacking

/-!
# Number types of a binary format

What single and double precision have in common: a value is packed in a format,
and an operation is the one on unpacked numbers, with the result packed again.
So what holds of roundings in every format holds of both types. The result of
an operation on finite numbers is rounded from the exact one (`RoundsIn`), which
leaves no room for an undefined value; an infinity is what remains of a result
that is out of range.
-/

namespace DenseNumeric.Binary

open Float.Model (Format UnpackedFloat)
open Float.Model.UnpackedFloat hiding round

/-- An unpacked number after it was packed. -/
def repack (fmt : Format) (u : UnpackedFloat) : UnpackedFloat := unpack fmt (pack fmt u)

theorem repack_zero (fmt : Format) (s : Sign) : repack fmt (.zero s) = .zero s := unpack_packedZero

theorem repack_infinity (fmt : Format) (s : Sign) : repack fmt (.infinity s) = .infinity s :=
  unpack_packedInfinity fmt s

theorem repack_notANumber (fmt : Format) : repack fmt .notANumber = .notANumber := by
  simp [repack, pack]

/-- A type of numbers that are packed in a format with numbers around one. -/
class Packed (R : Type) [Arith R] where
  format : Format
  two_le_exponentBits : 2 ≤ format.exponentBits
  isWide : IsWide format
  unpacked : R → UnpackedFloat
  isProper {x : R} : (unpacked x).isFinite = true → IsProper format (unpacked x)
  repack_unpacked (x : R) : repack format (unpacked x) = unpacked x
  isFinite_eq (x : R) : Arith.isFinite x = (unpacked x).isFinite
  beq_zero (x : R) : (x == 0) = (unpacked x).beq (.zero .positive)
  unpacked_abs (x : R) : unpacked (Arith.abs x) = repack format (unpacked x).abs
  unpacked_add (x y : R) : unpacked (x + y) = repack format (.add format (unpacked x) (unpacked y))
  unpacked_sub (x y : R) : unpacked (x - y) = repack format (.sub format (unpacked x) (unpacked y))
  unpacked_mul (x y : R) : unpacked (x * y) = repack format (.mul format (unpacked x) (unpacked y))
  unpacked_div (x y : R) : unpacked (x / y) = repack format (.div format (unpacked x) (unpacked y))

instance : Packed Float where
  format := .binary64
  two_le_exponentBits := by decide
  isWide := ⟨by decide, by decide⟩
  unpacked x := x.toModel.unpack
  isProper := isProper_unpack (by decide)
  repack_unpacked x := congrArg (unpack _) (pack_unpack_of_valid x.toModel.valid)
  isFinite_eq _ := rfl
  beq_zero _ := rfl
  unpacked_abs _ := rfl
  unpacked_add _ _ := rfl
  unpacked_sub _ _ := rfl
  unpacked_mul _ _ := rfl
  unpacked_div _ _ := rfl

instance : Packed Float32 where
  format := .binary32
  two_le_exponentBits := by decide
  isWide := ⟨by decide, by decide⟩
  unpacked x := x.toModel.unpack
  isProper := isProper_unpack (by decide)
  repack_unpacked x := congrArg (unpack _) (pack_unpack_of_valid x.toModel.valid)
  isFinite_eq _ := rfl
  beq_zero _ := rfl
  unpacked_abs _ := rfl
  unpacked_add _ _ := rfl
  unpacked_sub _ _ := rfl
  unpacked_mul _ _ := rfl
  unpacked_div _ _ := rfl

namespace Packed

variable {R : Type} [Arith R] [Packed R] {x y z : R} {r : ℝ}

/-! ## Values -/

/-- The real number that a number stands for; zero where it is none. -/
noncomputable def value (x : R) : ℝ := valueOf (unpacked x)

/-- Whether nothing is left of a number. -/
def isNaN (x : R) : Bool := (unpacked x).isNaN

theorem isNaN_iff : isNaN x = true ↔ unpacked x = .notANumber := by
  unfold isNaN
  cases unpacked x <;> simp [UnpackedFloat.isNaN]

theorem isProper_of_isFinite (h : Arith.isFinite x = true) :
    IsProper (format R) (unpacked x) := isProper (isFinite_eq x ▸ h)

theorem isNumber_value (h : Arith.isFinite x = true) : IsNumber (format R) (value x) :=
  (isProper_of_isFinite h).isNumber

theorem isFinite_of_isProper (h : IsProper (format R) (unpacked x)) : Arith.isFinite x = true := by
  rw [isFinite_eq]
  rcases h.zero_or_finite with ⟨s, hs⟩ | ⟨s, m, e, hm, hs⟩
  · rw [hs]
    rfl
  · rw [hs]
    rfl

theorem abs_value_lt (h : Arith.isFinite x = true) : |value x| < overflowAt (format R) := by
  rcases unpack_pack (two_le_exponentBits (R := R)) (isProper_of_isFinite h) with
    ⟨hlt, -⟩ | ⟨-, s, hs, -⟩
  · exact hlt
  · rw [isFinite_eq, ← repack_unpacked, repack, hs] at h
    cases h

/-- Only zeros are equal to zero. -/
theorem beq_zero_iff : (x == 0) = true ↔ Arith.isFinite x = true ∧ value x = 0 := by
  have hzero : IsProper (format R) (.zero .positive) := trivial
  rw [beq_zero]
  constructor
  · intro h
    have hfinite : Arith.isFinite x = true := by
      rw [isFinite_eq]
      cases hu : unpacked x with
      | finite s m e hm => rfl
      | zero s => rfl
      | infinity s =>
          rw [hu] at h
          cases s <;> cases h
      | notANumber =>
          rw [hu] at h
          cases h
    exact ⟨hfinite, (beq_iff (isProper_of_isFinite hfinite) hzero).1 h⟩
  · rintro ⟨hfinite, hvalue⟩
    exact (beq_iff (isProper_of_isFinite hfinite) hzero).2 hvalue

theorem overflowAt_eq {fmt : Format} {n : ℕ}
    (h : (2 : ℤ) ^ fmt.exponentBits - 1 - fmt.exponentBias = n) : overflowAt fmt = 2 ^ n := by
  rw [overflowAt, h, zpow_natCast, Nat.cast_ofNat]

variable (R) in
theorem two_lt_overflowAt : 2 < overflowAt (format R) := by
  have hbits := two_le_exponentBits (R := R)
  have hfour := four_le_two_pow hbits
  have hhalf : 2 ^ (format R).exponentBits = 2 * 2 ^ ((format R).exponentBits - 1) := by
    rw [← pow_succ', Nat.sub_add_cancel (by omega)]
  have hbias : (format R).exponentBias = 2 ^ ((format R).exponentBits - 1) - 1 := rfl
  have hexponent : (2 : ℤ) ≤ 2 ^ (format R).exponentBits - 1 - (format R).exponentBias := by
    have hcast : ((2 ^ (format R).exponentBits : ℕ) : ℤ) = 2 ^ (format R).exponentBits :=
      Nat.cast_pow 2 _
    omega
  calc (2 : ℝ) < 2 ^ (2 : ℤ) := by norm_num
    _ ≤ overflowAt (format R) := zpow_le_zpow_right₀ one_le_two hexponent

/-! ## Rounded results -/

/-- `y` is finite, and a nearest number to `r`. -/
structure Yields (r : ℝ) (y : R) : Prop where
  isFinite : Arith.isFinite y = true
  isNearest : IsNearest (format R) r (value y)

/-- `y` is what `r` is rounded to: a nearest number, or an infinity if that is
out of range. -/
def RoundsIn (r : ℝ) (y : R) : Prop :=
  Yields r y ∨ ∃ v s, IsNearest (format R) r v ∧ overflowAt (format R) ≤ |v| ∧
    unpacked y = .infinity s

theorem IsRounded.roundsIn {u : UnpackedFloat} (h : IsRounded (format R) r u)
    (hy : unpacked y = repack (format R) u) : RoundsIn r y := by
  rcases unpack_pack (two_le_exponentBits (R := R)) h.isProper with ⟨-, heq⟩ | ⟨hle, s, hs, -⟩
  · have hyu : unpacked y = u := hy.trans heq
    refine .inl ⟨isFinite_of_isProper (hyu ▸ h.isProper), ?_⟩
    rw [value, hyu]
    exact h.isNearest
  · exact .inr ⟨_, s, h.isNearest, hle, hy.trans hs⟩

/-- What is not larger than a number in range is in range. -/
theorem RoundsIn.yields_of_le {z : ℝ} (h : RoundsIn r y) (hz : IsNumber (format R) z)
    (hr : |r| ≤ z) (hlt : z < overflowAt (format R)) : Yields r y := by
  rcases h with h | ⟨v, s, hnearest, hlarge, -⟩
  · exact h
  · exact absurd (hlarge.trans (hnearest.abs_le_of_le hz hr)) (not_le.2 hlt)

theorem RoundsIn.yields (h : RoundsIn r y) (hy : Arith.isFinite y = true) : Yields r y := by
  rcases h with h | ⟨v, s, -, -, hs⟩
  · exact h
  · rw [isFinite_eq, hs] at hy
    cases hy

theorem RoundsIn.isNaN_eq_false (h : RoundsIn r y) : isNaN y = false := by
  rw [Bool.eq_false_iff, Ne, isNaN_iff]
  intro hnan
  rcases h with h | ⟨-, s, -, -, hs⟩
  · have hproper := isProper_of_isFinite h.isFinite
    rw [hnan] at hproper
    exact hproper
  · rw [hs] at hnan
    cases hnan

/-! ## Operations -/

theorem roundsIn_add (hx : Arith.isFinite x = true) (hy : Arith.isFinite y = true) :
    RoundsIn (value x + value y) (x + y) :=
  IsRounded.roundsIn (add_isRounded (isProper_of_isFinite hx) (isProper_of_isFinite hy))
    (unpacked_add x y)

theorem roundsIn_sub (hx : Arith.isFinite x = true) (hy : Arith.isFinite y = true) :
    RoundsIn (value x - value y) (x - y) :=
  IsRounded.roundsIn (sub_isRounded (isProper_of_isFinite hx) (isProper_of_isFinite hy))
    (unpacked_sub x y)

theorem roundsIn_mul (hx : Arith.isFinite x = true) (hy : Arith.isFinite y = true) :
    RoundsIn (value x * value y) (x * y) :=
  IsRounded.roundsIn (mul_isRounded (two_le_exponentBits (R := R)) (isProper_of_isFinite hx)
    (isProper_of_isFinite hy)) (unpacked_mul x y)

theorem roundsIn_div (hx : Arith.isFinite x = true) (hy : Arith.isFinite y = true)
    (h0 : value y ≠ 0) : RoundsIn (value x / value y) (x / y) :=
  IsRounded.roundsIn (div_isRounded (isProper_of_isFinite hx) (isProper_of_isFinite hy) h0)
    (unpacked_div x y)

theorem abs_spec (hx : Arith.isFinite x = true) :
    Arith.isFinite (Arith.abs x) = true ∧ value (Arith.abs x) = |value x| := by
  have hproper := (isProper_of_isFinite hx).abs
  have hvalue : valueOf (unpacked x).abs = |value x| := valueOf_abs _
  rcases unpack_pack (two_le_exponentBits (R := R)) hproper with ⟨-, heq⟩ | ⟨hle, -⟩
  · have habs : unpacked (Arith.abs x) = (unpacked x).abs := (unpacked_abs x).trans heq
    rw [value, habs]
    exact ⟨isFinite_of_isProper (habs ▸ hproper), hvalue⟩
  · rw [hvalue, abs_abs] at hle
    exact absurd hle (not_le.2 (abs_value_lt hx))

/-- A number divided by one that is not zero, or an infinity divided by it. -/
theorem isNaN_div_eq_false (hx : isNaN x = false) (hy : Arith.isFinite y = true)
    (h0 : value y ≠ 0) : isNaN (x / y) = false := by
  have hproper := isProper_of_isFinite hy
  cases hu : unpacked x with
  | notANumber =>
      rw [isNaN_iff.2 hu] at hx
      cases hx
  | infinity s =>
      have hquotient : ∃ s', UnpackedFloat.div (format R) (.infinity s) (unpacked y)
          = .infinity s' := by
        rcases hproper.zero_or_finite with ⟨s', hs⟩ | ⟨s', m, e, hm, hs⟩
        · exact absurd (congrArg valueOf hs) h0
        · rw [hs]
          exact ⟨_, rfl⟩
      obtain ⟨s', hs'⟩ := hquotient
      have hdiv := unpacked_div x y
      rw [hu, hs', repack_infinity] at hdiv
      rw [isNaN, hdiv]
      rfl
  | zero s => exact (roundsIn_div (by rw [isFinite_eq, hu]; rfl) hy h0).isNaN_eq_false
  | finite s m e hm => exact (roundsIn_div (by rw [isFinite_eq, hu]; rfl) hy h0).isNaN_eq_false

end Packed

end DenseNumeric.Binary
