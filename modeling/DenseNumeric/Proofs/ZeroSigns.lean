import DenseNumeric.Proofs.Elements
import DenseNumeric.Proofs.FloatReading
import DenseNumeric.Proofs.OperandSymmetry

/-!
# Results up to the signs of zeros

Two ways to compute the same thing may give zeros of different sign, and go on
with them. Sums, differences and products hand such a difference on as one of
the same kind: where one side is a zero, so is the other, and everything else is
equal to the last bit (`Matches`). A quotient does so in its dividend only, as a
number over a zero has the sign of the zero. The quotient of complex numbers is
safe on both sides all the same: its divisor goes in as a taxicab length and as
squares, and neither knows about signs of zeros.
-/

namespace DenseNumeric

namespace Binary

open Float.Model (Format UnpackedFloat)
open Float.Model.UnpackedFloat hiding round

/-! ## Unpacked numbers -/

/-- The same unpacked number, but for the sign of a zero. -/
inductive Alike : UnpackedFloat → UnpackedFloat → Prop where
  | refl (u : UnpackedFloat) : Alike u u
  | zeros (s s' : Sign) : Alike (.zero s) (.zero s')

namespace Alike

variable {fmt : Format} {u u' v v' w : UnpackedFloat}

theorem symm (h : Alike u v) : Alike v u := by
  cases h with
  | refl => exact .refl _
  | zeros s s' => exact .zeros s' s

theorem trans (h : Alike u v) (h' : Alike v w) : Alike u w := by
  cases h with
  | refl => exact h'
  | zeros s s' =>
      cases h' with
      | refl => exact .zeros s s'
      | zeros _ s'' => exact .zeros s s''

theorem neg (h : Alike u v) : Alike u.neg v.neg := by
  cases h with
  | refl => exact .refl _
  | zeros s s' => exact .zeros (-s) (-s')

theorem abs_eq (h : Alike u v) : u.abs = v.abs := by
  cases h <;> rfl

theorem toInt_eq (h : Alike u v) (lo hi : Int) : u.toInt lo hi = v.toInt lo hi := by
  cases h <;> rfl

theorem roundTo (h : Alike u v) : Alike (roundTo fmt u) (roundTo fmt v) := by
  cases h with
  | refl => exact .refl _
  | zeros s s' => exact .zeros s s'

theorem repack (h : Alike u v) : Alike (unpack fmt (pack fmt u)) (unpack fmt (pack fmt v)) := by
  cases h with
  | refl => exact .refl _
  | zeros s s' =>
      rw [pack, pack, unpack_packedZero, unpack_packedZero]
      exact .zeros s s'

/-- A zero adds nothing. -/
theorem add_zero (u : UnpackedFloat) (s : Sign) : Alike (UnpackedFloat.add fmt u (.zero s)) u := by
  cases u with
  | zero s' =>
      simp only [UnpackedFloat.add]
      split <;> exact .zeros _ _
  | _ => exact .refl _

theorem add_left (h : Alike u u') (v : UnpackedFloat) :
    Alike (UnpackedFloat.add fmt u v) (UnpackedFloat.add fmt u' v) := by
  cases h with
  | refl => exact .refl _
  | zeros s s' =>
      rw [unpacked_add_comm, unpacked_add_comm fmt (.zero s')]
      exact (add_zero v s).trans (add_zero v s').symm

theorem mul_left (h : Alike u u') (v : UnpackedFloat) :
    Alike (UnpackedFloat.mul fmt u v) (UnpackedFloat.mul fmt u' v) := by
  cases h with
  | refl => exact .refl _
  | zeros s s' =>
      cases v with
      | finite _ _ _ _ => exact .zeros _ _
      | zero _ => exact .zeros _ _
      | infinity _ => exact .refl _
      | notANumber => exact .refl _

theorem div_left (h : Alike u u') (v : UnpackedFloat) :
    Alike (UnpackedFloat.div fmt u v) (UnpackedFloat.div fmt u' v) := by
  cases h with
  | refl => exact .refl _
  | zeros s s' =>
      cases v with
      | finite _ _ _ _ => exact .zeros _ _
      | zero _ => exact .refl _
      | infinity _ => exact .zeros _ _
      | notANumber => exact .refl _

theorem mul_self_eq (h : Alike u v) : UnpackedFloat.mul fmt u u = UnpackedFloat.mul fmt v v := by
  cases h with
  | refl => rfl
  | zeros s s' => cases s <;> cases s' <;> rfl

theorem normalize_neg (m e : Int) : Alike (UnpackedFloat.normalize fmt (-m) e .positive)
    (UnpackedFloat.normalize fmt m e .positive).neg := by
  rcases lt_trichotomy m 0 with hm | rfl | hm
  · have hlt : compare m 0 = .lt := Int.compare_eq_lt.2 hm
    have hgt : compare (-m) 0 = .gt := Int.compare_eq_gt.2 (by omega)
    simp only [UnpackedFloat.normalize, hlt, hgt, ← round_neg]
    exact .refl _
  · exact .zeros _ _
  · have hgt : compare m 0 = .gt := Int.compare_eq_gt.2 hm
    have hlt : compare (-m) 0 = .lt := Int.compare_eq_lt.2 (by omega)
    simp only [UnpackedFloat.normalize, hlt, hgt, ← round_neg, Int.neg_neg]
    exact .refl _

/-- A sum of negated numbers is the negated sum, unless the sum vanishes. -/
theorem neg_add_neg (u v : UnpackedFloat) : Alike (UnpackedFloat.add fmt u.neg v.neg)
    (UnpackedFloat.add fmt u v).neg := by
  cases u with
  | notANumber => exact .refl _
  | infinity s =>
      cases v with
      | infinity s' => cases s <;> cases s' <;> exact .refl _
      | _ => exact .refl _
  | zero s =>
      cases v with
      | zero s' =>
          cases s <;> cases s' <;> exact .zeros _ _
      | _ => exact .refl _
  | finite s m e hm =>
      cases v with
      | finite s' m' e' hm' =>
          simp only [UnpackedFloat.add, UnpackedFloat.neg, sign_apply_neg, ← Int.neg_add]
          exact normalize_neg _ _
      | _ => exact .refl _

end Alike

/-! ## Doubles -/

/-- Equal as numbers, whatever the signs of zeros, or undefined both. -/
def Matches (x y : Float) : Prop := (x == y) = true ∨ x.isNaN = true ∧ y.isNaN = true

instance (x y : Float) : Decidable (Matches x y) := inferInstanceAs (Decidable (_ ∨ _))

theorem eq_of_then_compare {m m' : Nat} {e e' : Int}
    (h : (compare e e').then (compare m m') = .eq) : m = m' ∧ e = e' := by
  rw [Ordering.then_eq_eq, Int.compare_eq_eq, Nat.compare_eq_eq] at h
  exact h.symm

/-- Only zeros are equal without being the same. -/
theorem alike_of_beq {u v : UnpackedFloat} (h : u.beq v = true) : Alike u v := by
  have h : u.compare v = some .eq := beq_iff_eq.1 h
  cases u with
  | notANumber => cases v <;> cases h
  | infinity s =>
      cases v with
      | infinity s' => cases s <;> cases s' <;> first | exact .refl _ | cases h
      | _ => cases s <;> cases h
  | zero s =>
      cases v with
      | zero s' => exact .zeros s s'
      | notANumber => cases h
      | infinity s' => cases s' <;> cases h
      | finite s' m' e' hm' => cases s' <;> cases h
  | finite s m e hm =>
      cases v with
      | finite s' m' e' hm' =>
          cases s <;> cases s'
          · have h : ((compare e e').then (compare m m')).swap = .eq := Option.some.inj h
            obtain ⟨rfl, rfl⟩ := eq_of_then_compare (Ordering.swap_eq_eq.1 h)
            exact .refl _
          · cases h
          · cases h
          · obtain ⟨rfl, rfl⟩ := eq_of_then_compare (Option.some.inj h)
            exact .refl _
      | zero s' => cases s <;> cases h
      | infinity s' => cases s' <;> cases s <;> cases h
      | notANumber => cases h

theorem beq_self_of_ne {u : UnpackedFloat} (h : u ≠ .notANumber) : u.beq u = true := by
  cases u with
  | notANumber => exact absurd rfl h
  | infinity s => cases s <;> rfl
  | zero s => rfl
  | finite s m e hm => cases s <;> simp [UnpackedFloat.beq, UnpackedFloat.compare]

theorem eq_of_isNaN {u : UnpackedFloat} (h : u.isNaN = true) : u = .notANumber := by
  cases u with
  | notANumber => rfl
  | _ => cases h

theorem alike_iff {u v : UnpackedFloat} :
    (u.beq v = true ∨ u.isNaN = true ∧ v.isNaN = true) ↔ Alike u v := by
  constructor
  · rintro (h | ⟨hu, hv⟩)
    · exact alike_of_beq h
    · rw [eq_of_isNaN hu, eq_of_isNaN hv]
      exact .refl _
  · intro h
    cases h with
    | zeros s s' => exact .inl rfl
    | refl =>
        by_cases hu : u = .notANumber
        · rw [hu]
          exact .inr ⟨rfl, rfl⟩
        · exact .inl (beq_self_of_ne hu)

theorem matches_iff {x y : Float} : Matches x y ↔ Alike x.toModel.unpack y.toModel.unpack :=
  alike_iff

namespace Matches

variable {x x' y y' z : Float}

@[refl] theorem refl (x : Float) : Matches x x := matches_iff.2 (.refl _)

theorem of_eq (h : x = y) : Matches x y := h ▸ refl x

theorem symm (h : Matches x y) : Matches y x := matches_iff.2 (matches_iff.1 h).symm

theorem trans (h : Matches x y) (h' : Matches y z) : Matches x z :=
  matches_iff.2 ((matches_iff.1 h).trans (matches_iff.1 h'))

theorem neg (h : Matches x y) : Matches (-x) (-y) := by
  rw [matches_iff, unpack_neg, unpack_neg]
  exact (matches_iff.1 h).neg

theorem neg_zero : Matches (-0) 0 := matches_iff.2 (.zeros _ _)

/-- The sign of a zero is lost in an absolute value. -/
theorem abs_eq (h : Matches x y) : Arith.abs x = Arith.abs y :=
  congrArg (fun u => Float.ofModel (.pack u)) (matches_iff.1 h).abs_eq

theorem add (hx : Matches x x') (hy : Matches y y') : Matches (x + y) (x' + y') := by
  have left {x x' : Float} (hx : Matches x x') (y : Float) : Matches (x + y) (x' + y) :=
    matches_iff.2 ((matches_iff.1 hx).add_left _).repack
  refine (left hx y).trans ?_
  rw [float_add_comm, float_add_comm x']
  exact left hy x'

theorem sub (hx : Matches x x') (hy : Matches y y') : Matches (x - y) (x' - y') := by
  rw [float_sub_eq, float_sub_eq]
  exact hx.add hy.neg

theorem mul (hx : Matches x x') (hy : Matches y y') : Matches (x * y) (x' * y') := by
  have left {x x' : Float} (hx : Matches x x') (y : Float) : Matches (x * y) (x' * y) :=
    matches_iff.2 ((matches_iff.1 hx).mul_left _).repack
  refine (left hx y).trans ?_
  rw [float_mul_comm, float_mul_comm x']
  exact left hy x'

/-- The sign of a zero is lost in a square. -/
theorem mul_self_eq (h : Matches x y) : x * x = y * y :=
  congrArg (fun u => Float.ofModel (.pack u)) (matches_iff.1 h).mul_self_eq

theorem div (h : Matches x x') (y : Float) : Matches (x / y) (x' / y) :=
  matches_iff.2 ((matches_iff.1 h).div_left _).repack

/-- A zero adds nothing. -/
theorem add_zero (x : Float) (hy : Matches y 0) : Matches (x + y) x := by
  refine ((refl x).add hy).trans (matches_iff.2 ?_)
  have h : Alike (x + 0).toModel.unpack (unpack .binary64 (pack .binary64 x.toModel.unpack)) :=
    (Alike.add_zero x.toModel.unpack .positive).repack
  rwa [pack_unpack_model] at h

theorem sub_zero (x : Float) (hy : Matches y 0) : Matches (x - y) x := by
  rw [float_sub_eq]
  exact add_zero x (hy.neg.trans neg_zero)

theorem neg_add (x y : Float) : Matches (-(x + y)) (-x + -y) := by
  have h : Alike
      (unpack .binary64 (pack .binary64
        (UnpackedFloat.add .binary64 x.toModel.unpack.neg y.toModel.unpack.neg)))
      (unpack .binary64 (pack .binary64
        (UnpackedFloat.add .binary64 x.toModel.unpack y.toModel.unpack).neg)) :=
    (Alike.neg_add_neg _ _).repack
  rw [unpack_pack_neg, ← unpack_neg, ← unpack_neg] at h
  rw [matches_iff, unpack_neg]
  exact h.symm

theorem neg_sub (x y : Float) : Matches (-(x - y)) (-x - -y) := by
  rw [float_sub_eq, float_sub_eq]
  exact neg_add x (-y)

theorem quantize (h : Matches x y) (d : DType) : Matches (d.quantize x) (d.quantize y) := by
  have hnarrow : Matches (widen (narrow x)) (widen (narrow y)) :=
    matches_iff.2 (matches_iff.1 h).roundTo.repack.roundTo.repack
  cases d with
  | f64 | c128 => exact h
  | f32 | c64 => exact hnarrow
  | i32 =>
      refine of_eq (congrArg ofInt ?_)
      rw [toInt32_eq, toInt32_eq, (matches_iff.1 h).toInt_eq]

theorem mul_zero (hx : x.isFinite = true) (hy : Matches y 0) : Matches (x * y) 0 := by
  have hzero {u : UnpackedFloat} (hu : u.isFinite = true) :
      Alike (UnpackedFloat.mul .binary64 u (.zero .positive)) (.zero .positive) := by
    cases u with
    | finite s m e hm => exact .zeros _ _
    | zero s => exact .zeros _ _
    | infinity s => cases hu
    | notANumber => cases hu
  have h : Alike (x * 0).toModel.unpack
      (unpack .binary64 (pack .binary64 (0 : Float).toModel.unpack)) := (hzero hx).repack
  rw [pack_unpack_model] at h
  exact ((refl x).mul hy).trans (matches_iff.2 h)

theorem zero_mul (hx : Matches x 0) (hy : y.isFinite = true) : Matches (x * y) 0 := by
  rw [float_mul_comm]
  exact mul_zero hy hx

/-- What is no zero is equal to the last bit. -/
theorem eq_of_ne_zero (h : Matches x y) (hy : toReal y ≠ 0) : x = y := by
  refine float_ext ?_
  rw [matches_iff] at h
  unfold toReal at hy
  generalize x.toModel.unpack = u at *
  generalize y.toModel.unpack = v at *
  cases h with
  | refl => rfl
  | zeros s s' => exact absurd (valueOf_zero s') hy

theorem eq_one (h : Matches x 1) : x = 1 := by
  refine h.eq_of_ne_zero ?_
  rw [toReal_one]
  exact one_ne_zero

end Matches

end Binary

/-! ## Complex numbers -/

namespace Complex

/-- Both parts match. -/
structure Matches (z w : Complex Float) : Prop where
  re : Binary.Matches z.re w.re
  im : Binary.Matches z.im w.im

instance (z w : Complex Float) : Decidable (z.Matches w) :=
  decidable_of_iff (Binary.Matches z.re w.re ∧ Binary.Matches z.im w.im)
    ⟨fun h => ⟨h.1, h.2⟩, fun h => ⟨h.re, h.im⟩⟩

/-- A divisor, divided by its taxicab length. -/
def scaled (w : Complex Float) : Complex Float := w.divReal w.taxicab

theorem quotient_eq (z w : Complex Float) : z / w =
    if w.taxicab == 0 then ⟨0 / 0, 0 / 0⟩
    else divReal
      ⟨z.re * w.scaled.re + z.im * w.scaled.im, z.im * w.scaled.re - z.re * w.scaled.im⟩
      (w.scaled.magnitudeSq * w.taxicab) := rfl

namespace Matches

variable {z z' w w' v : Complex Float}

@[refl] theorem refl (z : Complex Float) : z.Matches z := ⟨.refl _, .refl _⟩

theorem of_eq (h : z = w) : z.Matches w := h ▸ refl z

theorem symm (h : z.Matches w) : w.Matches z := ⟨h.re.symm, h.im.symm⟩

theorem trans (h : z.Matches w) (h' : w.Matches v) : z.Matches v :=
  ⟨h.re.trans h'.re, h.im.trans h'.im⟩

theorem conj (h : z.Matches w) : z.conj.Matches w.conj := ⟨h.re, h.im.neg⟩

theorem add (hz : z.Matches z') (hw : w.Matches w') : (z + w).Matches (z' + w') :=
  ⟨hz.re.add hw.re, hz.im.add hw.im⟩

theorem sub (hz : z.Matches z') (hw : w.Matches w') : (z - w).Matches (z' - w') :=
  ⟨hz.re.sub hw.re, hz.im.sub hw.im⟩

theorem mul (hz : z.Matches z') (hw : w.Matches w') : (z * w).Matches (z' * w') :=
  ⟨(hz.re.mul hw.re).sub (hz.im.mul hw.im), (hz.re.mul hw.im).add (hz.im.mul hw.re)⟩

theorem taxicab_eq (h : z.Matches w) : z.taxicab = w.taxicab := by
  rw [taxicab, taxicab, h.re.abs_eq, h.im.abs_eq]

theorem scaled (h : z.Matches w) : z.scaled.Matches w.scaled := by
  rw [Complex.scaled, Complex.scaled, h.taxicab_eq]
  exact ⟨h.re.div _, h.im.div _⟩

theorem magnitudeSq_eq (h : z.Matches w) : z.magnitudeSq = w.magnitudeSq := by
  rw [magnitudeSq, magnitudeSq, h.re.mul_self_eq, h.im.mul_self_eq]

theorem divReal (h : z.Matches w) (x : Float) : (z.divReal x).Matches (w.divReal x) :=
  ⟨h.re.div x, h.im.div x⟩

theorem div (hz : z.Matches z') (hw : w.Matches w') : (z / w).Matches (z' / w') := by
  have hc := hw.scaled
  rw [quotient_eq, quotient_eq, hw.taxicab_eq, hc.magnitudeSq_eq]
  split
  · exact refl _
  · refine divReal ⟨?_, ?_⟩ _
    · exact (hz.re.mul hc.re).add (hz.im.mul hc.im)
    · exact (hz.im.mul hc.re).sub (hz.re.mul hc.im)

/-- A zero adds nothing. -/
theorem add_zero (z : Complex Float) (hw : w.Matches 0) : (z + w).Matches z :=
  ⟨.add_zero z.re hw.re, .add_zero z.im hw.im⟩

theorem zero_mul (hz : z.Matches 0) (hre : w.re.isFinite = true) (him : w.im.isFinite = true) :
    (z * w).Matches 0 := by
  constructor
  · exact (Binary.Matches.sub_zero _ (.zero_mul hz.im him)).trans (.zero_mul hz.re hre)
  · exact (Binary.Matches.add_zero _ (.zero_mul hz.im hre)).trans (.zero_mul hz.re him)

theorem element (h : z.Matches w) (d : DType) : (d.element z).Matches (d.element w) := by
  refine ⟨h.re.quantize d, ?_⟩
  cases hd : d.isComplex with
  | true =>
      rw [DType.im_element_of_complex hd, DType.im_element_of_complex hd]
      exact h.im.quantize d
  | false => rw [DType.im_element_of_real hd, DType.im_element_of_real hd]

end Matches

end Complex

/-! ## Operations and arrays -/

theorem BinaryOp.apply_matches (op : BinaryOp) {z z' w w' : Complex Float} (hz : z.Matches z')
    (hw : w.Matches w') : (op.apply z w).Matches (op.apply z' w') := by
  cases op with
  | add => exact hz.add hw
  | sub => exact hz.sub hw
  | mul => exact hz.mul hw
  | div => exact hz.div hw

namespace NumArray

/-- Arrays of one shape and type, with entries that match. -/
structure Matches (a b : NumArray) : Prop where
  shape : a.shape = b.shape
  dtype : a.dtype = b.dtype
  entry : ∀ i < a.nrows, ∀ j < a.ncols, (a.entry i j).Matches (b.entry i j)

end NumArray

end DenseNumeric
