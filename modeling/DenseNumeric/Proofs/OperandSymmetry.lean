import DenseNumeric.Proofs.UnpackedOperations

/-!
# Operands exchanged and negated

A sum and a product are one rounding of the exact result, so that the order of
the operands makes no difference. Neither do their signs: rounding goes by
significand and exponent, and hands the sign on. A product or a quotient with a
negated operand is the negated one, bit for bit, and a number may be negated
before or after it is rounded to single precision. A negated sum is left out
here. It is made of signed significands, and if they cancel, then the sum is a
positive zero on either side.
-/

namespace DenseNumeric.Binary

open Float.Model (Format UnpackedFloat)
open Float.Model.UnpackedFloat hiding round

/-! ## Unpacked numbers -/

section Unpacked

variable (fmt : Format)

theorem sign_mul_comm (s s' : Sign) : s * s' = s' * s := by
  cases s <;> cases s' <;> rfl

theorem unpacked_mul_comm (u v : UnpackedFloat) :
    UnpackedFloat.mul fmt u v = UnpackedFloat.mul fmt v u := by
  cases u <;> cases v <;>
    simp only [UnpackedFloat.mul, sign_mul_comm, Nat.mul_comm, Int.add_comm]

theorem unpacked_add_comm (u v : UnpackedFloat) :
    UnpackedFloat.add fmt u v = UnpackedFloat.add fmt v u := by
  cases u with
  | notANumber => cases v <;> rfl
  | zero s =>
      cases v with
      | zero s' => cases s <;> cases s' <;> rfl
      | _ => rfl
  | infinity s =>
      cases v with
      | infinity s' => cases s <;> cases s' <;> rfl
      | _ => rfl
  | finite s m e hm =>
      cases v with
      | finite s' m' e' hm' => simp only [UnpackedFloat.add, min_comm, Int.add_comm]
      | _ => rfl

theorem sign_neg_neg (s : Sign) : - -s = s := by
  cases s <;> rfl

theorem sign_neg_mul (s s' : Sign) : -s * s' = -(s * s') := by
  cases s <;> cases s' <;> rfl

theorem sign_neg_div (s s' : Sign) : -s / s' = -(s / s') := by
  cases s <;> cases s' <;> rfl

theorem sign_div_neg (s s' : Sign) : s / -s' = -(s / s') := by
  cases s <;> cases s' <;> rfl

theorem sign_apply_neg (s : Sign) (n : Int) : (-s).apply n = -s.apply n := by
  cases s
  · exact (Int.neg_neg n).symm
  · rfl

theorem roundWithAccuracy_neg (s : Sign) (m : Nat) (e : Int) (acc : Accuracy) :
    roundWithAccuracy fmt (-s) m e acc = (roundWithAccuracy fmt s m e acc).neg := by
  simp only [roundWithAccuracy]
  split <;> rfl

theorem round_neg (s : Sign) (m : Nat) (e : Int) :
    UnpackedFloat.round fmt (-s) m e = (UnpackedFloat.round fmt s m e).neg :=
  roundWithAccuracy_neg fmt s _ _ .exact

theorem roundTo_neg (u : UnpackedFloat) : roundTo fmt u.neg = (roundTo fmt u).neg := by
  cases u with
  | finite s m e hm => exact round_neg fmt s m e
  | _ => rfl

theorem unpacked_neg_neg (u : UnpackedFloat) : u.neg.neg = u := by
  cases u <;> simp only [UnpackedFloat.neg, sign_neg_neg]

theorem unpacked_abs_neg (u : UnpackedFloat) : u.neg.abs = u.abs := by
  cases u <;> rfl

theorem unpacked_neg_mul (u v : UnpackedFloat) :
    UnpackedFloat.mul fmt u.neg v = (UnpackedFloat.mul fmt u v).neg := by
  cases u <;> cases v <;>
    simp only [UnpackedFloat.mul, UnpackedFloat.neg, sign_neg_mul, roundWithAccuracy_neg]

theorem unpacked_neg_div (u v : UnpackedFloat) :
    UnpackedFloat.div fmt u.neg v = (UnpackedFloat.div fmt u v).neg := by
  cases u <;> cases v <;>
    simp only [UnpackedFloat.div, UnpackedFloat.neg, sign_neg_div, roundWithAccuracy_neg]

theorem unpacked_div_neg (u v : UnpackedFloat) :
    UnpackedFloat.div fmt u v.neg = (UnpackedFloat.div fmt u v).neg := by
  cases u <;> cases v <;>
    simp only [UnpackedFloat.div, UnpackedFloat.neg, sign_div_neg, roundWithAccuracy_neg]

/-- Whatever a significand and an exponent are packed to, the sign stays apart. -/
theorem unpack_packComponents_neg (s : Sign) (e : BitVec fmt.exponentBits)
    (m : BitVec fmt.mantissaBitsWithoutImplicit) :
    unpack fmt (packComponents fmt (-s) e m) = (unpack fmt (packComponents fmt s e m)).neg := by
  simp only [unpack, unpackMantissa_packComponents, unpackExponent_packComponents,
    unpackSign_packComponents, Sign.ofBitVec_toBitVec]
  split_ifs <;> rfl

theorem unpack_pack_neg (u : UnpackedFloat) :
    unpack fmt (pack fmt u.neg) = (unpack fmt (pack fmt u)).neg := by
  cases u with
  | notANumber => simp [UnpackedFloat.neg, pack]
  | infinity s => exact unpack_packComponents_neg fmt s _ _
  | zero s => exact unpack_packComponents_neg fmt s _ _
  | finite s m e hm =>
      simp only [UnpackedFloat.neg, pack]
      split_ifs <;> exact unpack_packComponents_neg fmt s _ _

end Unpacked

/-! ## Doubles -/

section Doubles

variable (x y : Float)

/-- What was unpacked is packed again without loss. -/
theorem pack_unpack_model : pack .binary64 x.toModel.unpack = x.toModel.toBits.toBitVec :=
  pack_unpack_of_valid x.toModel.valid

/-- A double is known by what it is unpacked to. -/
theorem float_ext {x y : Float} (h : x.toModel.unpack = y.toModel.unpack) : x = y := by
  rw [← Float.toBits_inj, ← UInt64.toBitVec_inj]
  exact (pack_unpack_model x).symm.trans ((congrArg _ h).trans (pack_unpack_model y))

theorem unpack_neg : (-x).toModel.unpack = x.toModel.unpack.neg := by
  have hneg : (-x).toModel.unpack = unpack .binary64 (pack .binary64 x.toModel.unpack.neg) := rfl
  rw [hneg, unpack_pack_neg, pack_unpack_model]
  rfl

theorem float_neg_neg : - -x = x := by
  refine float_ext ?_
  rw [unpack_neg, unpack_neg, unpacked_neg_neg]

theorem float_abs_neg : Arith.abs (-x) = Arith.abs x := by
  have habs (z : Float) : Arith.abs z = .ofModel (.pack z.toModel.unpack.abs) := rfl
  rw [habs, habs, unpack_neg, unpacked_abs_neg]

/-- A result may be negated before it is packed. -/
theorem neg_ofModel_pack (u : UnpackedFloat) :
    -Float.ofModel (.pack u) = .ofModel (.pack u.neg) := by
  refine float_ext ?_
  rw [unpack_neg]
  exact (unpack_pack_neg .binary64 u).symm

theorem float_mul_eq : x * y
    = .ofModel (.pack (UnpackedFloat.mul .binary64 x.toModel.unpack y.toModel.unpack)) := rfl

theorem float_div_eq : x / y
    = .ofModel (.pack (UnpackedFloat.div .binary64 x.toModel.unpack y.toModel.unpack)) := rfl

theorem float_mul_comm : x * y = y * x :=
  congrArg (fun u => Float.ofModel (.pack u)) (unpacked_mul_comm .binary64 _ _)

theorem float_add_comm : x + y = y + x :=
  congrArg (fun u => Float.ofModel (.pack u)) (unpacked_add_comm .binary64 _ _)

theorem float_neg_mul : -x * y = -(x * y) := by
  rw [float_mul_eq, float_mul_eq, unpack_neg, unpacked_neg_mul, neg_ofModel_pack]

theorem float_mul_neg : x * -y = -(x * y) := by
  rw [float_mul_comm, float_neg_mul, float_mul_comm]

theorem float_neg_mul_neg : -x * -y = x * y := by
  rw [float_neg_mul, float_mul_neg, float_neg_neg]

theorem float_neg_div : -x / y = -(x / y) := by
  rw [float_div_eq, float_div_eq, unpack_neg, unpacked_neg_div, neg_ofModel_pack]

theorem float_div_neg : x / -y = -(x / y) := by
  rw [float_div_eq, float_div_eq, unpack_neg, unpacked_div_neg, neg_ofModel_pack]

theorem float_neg_div_neg : -x / -y = x / y := by
  rw [float_neg_div, float_div_neg, float_neg_neg]

theorem float_sub_neg : x - -y = x + y := by
  have hsub : x - -y = .ofModel (.pack
      (UnpackedFloat.sub .binary64 x.toModel.unpack (-y).toModel.unpack)) := rfl
  rw [hsub, sub_eq_add, unpack_neg, unpacked_neg_neg]
  rfl

theorem float_sub_eq : x - y = x + -y := by
  rw [← float_sub_neg, float_neg_neg]

/-- A double rounded to single precision, taken apart. -/
theorem widen_narrow_eq : widen (narrow x) = .ofModel (.pack (roundTo .binary64
    (unpack .binary32 (pack .binary32 (roundTo .binary32 x.toModel.unpack))))) := rfl

theorem widen_narrow_neg : widen (narrow (-x)) = -widen (narrow x) := by
  rw [widen_narrow_eq, widen_narrow_eq, unpack_neg, roundTo_neg, unpack_pack_neg, roundTo_neg,
    neg_ofModel_pack]

end Doubles

end DenseNumeric.Binary

/-- The integers are the one type with a number that cannot be negated. -/
theorem DenseNumeric.DType.quantize_neg {d : DType} (hd : d.isInteger = false) (x : Float) :
    d.quantize (-x) = -d.quantize x := by
  cases d with
  | f64 | c128 => rfl
  | f32 | c64 => exact Binary.widen_narrow_neg x
  | i32 => cases hd
