import Mathlib
import DenseNumeric.Proofs.Conjugation
import DenseNumeric.Proofs.LowerBounds
import DenseNumeric.Proofs.ScaledRows

/-!
# Parts that are zero or undefined

A number that matches its own negation is zero or undefined (`IsNull`). Every
operation with such an operand, divisors apart, has a result of that kind, so
that it can be carried through a computation without knowing anything of the
other operands. Two runs of the reduction are read this way. Real entries keep
null imaginary parts, and so zeros as long as they are finite. And a row that
was divided by an infinity has null parts all over; divided by its length, of
which nothing is left, they are undefined.
-/

namespace DenseNumeric

open Binary

namespace Binary

open Float.Model (UnpackedFloat)
open Float.Model.UnpackedFloat (pack unpack)

/-- Zero or undefined: the number matches its own negation. -/
def IsNull (x : Float) : Prop := Matches (-x) x

section Null

variable {x y : Float}

theorem isNull_zero : IsNull 0 := Matches.neg_zero

theorem isNull_iff :
    IsNull x ↔ (∃ s, x.toModel.unpack = .zero s) ∨ x.toModel.unpack = .notANumber := by
  rw [IsNull, matches_iff, unpack_neg]
  generalize x.toModel.unpack = u
  constructor
  · intro h
    cases u with
    | zero s => exact .inl ⟨s, rfl⟩
    | notANumber => exact .inr rfl
    | infinity s => cases s <;> cases h
    | finite s m e hm => cases s <;> cases h
  · rintro (⟨s, rfl⟩ | rfl)
    · exact .zeros _ _
    · exact .refl _

namespace IsNull

theorem neg (h : IsNull x) : IsNull (-x) := Matches.neg h

theorem add (hx : IsNull x) (hy : IsNull y) : IsNull (x + y) :=
  (Matches.neg_add x y).trans (Matches.add hx hy)

theorem sub (hx : IsNull x) (hy : IsNull y) : IsNull (x - y) :=
  (Matches.neg_sub x y).trans (Matches.sub hx hy)

theorem mul_left (hx : IsNull x) (y : Float) : IsNull (x * y) := by
  rw [IsNull, ← float_neg_mul]
  exact Matches.mul hx (.refl y)

theorem mul_right (x : Float) (hy : IsNull y) : IsNull (x * y) := by
  rw [float_mul_comm]
  exact hy.mul_left x

theorem div (hx : IsNull x) (y : Float) : IsNull (x / y) := by
  rw [IsNull, ← float_neg_div]
  exact Matches.div hx y

theorem toReal_eq_zero (h : IsNull x) (hx : x.isFinite = true) : toReal x = 0 := by
  rcases h with hbeq | ⟨-, hnan⟩
  · have := (float_beq_iff (neg_spec hx).1 hx).1 hbeq
    rw [(neg_spec hx).2] at this
    linarith
  · have hfinite : x.toModel.unpack.isFinite = true := hx
    rw [eq_of_isNaN hnan] at hfinite
    cases hfinite

theorem of_unpacked {u : UnpackedFloat} (h : Alike u.neg u) : IsNull (.ofModel (.pack u)) := by
  rw [IsNull, neg_ofModel_pack, matches_iff]
  exact h.repack

theorem sqrt (h : IsNull x) : IsNull (Arith.sqrt x) := by
  refine of_unpacked (u := .sqrt .binary64 x.toModel.unpack) ?_
  rcases isNull_iff.1 h with ⟨s, hs⟩ | hs
  · rw [hs]
    exact .zeros _ _
  · rw [hs]
    exact .refl _

theorem hypot (hx : IsNull x) (hy : IsNull y) : IsNull (Arith.hypot x y) := by
  refine of_unpacked (u := Binary.hypot .binary64 x.toModel.unpack y.toModel.unpack) ?_
  rcases isNull_iff.1 hx with ⟨s, hs⟩ | hs <;> rcases isNull_iff.1 hy with ⟨s', hs'⟩ | hs' <;>
    simp only [hs, hs', Binary.hypot]
  · exact .zeros _ _
  all_goals exact .refl _

end IsNull

/-! ## Undefined results -/

theorem isNaN_iff : x.isNaN = true ↔ x.toModel.unpack = .notANumber :=
  ⟨eq_of_isNaN, fun h => congrArg UnpackedFloat.isNaN h⟩

theorem isNaN_of_unpacked {u : UnpackedFloat} (h : u = .notANumber) :
    (Float.ofModel (.pack u)).isNaN = true := by
  rw [h]
  rfl

theorem isNaN_add_left (hx : x.isNaN = true) (y : Float) : (x + y).isNaN = true := by
  refine isNaN_of_unpacked (u := .add .binary64 x.toModel.unpack y.toModel.unpack) ?_
  rw [isNaN_iff.1 hx]
  cases y.toModel.unpack <;> rfl

theorem isNaN_add_right (x : Float) (hy : y.isNaN = true) : (x + y).isNaN = true := by
  rw [float_add_comm]
  exact isNaN_add_left hy x

theorem isNaN_mul_left (hx : x.isNaN = true) (y : Float) : (x * y).isNaN = true := by
  refine isNaN_of_unpacked (u := .mul .binary64 x.toModel.unpack y.toModel.unpack) ?_
  rw [isNaN_iff.1 hx]
  cases y.toModel.unpack <;> rfl

theorem isNaN_neg (hx : x.isNaN = true) : (-x).isNaN = true := by
  rw [isNaN_iff, unpack_neg, isNaN_iff.1 hx]
  rfl

theorem isNaN_sub_left (hx : x.isNaN = true) (y : Float) : (x - y).isNaN = true := by
  rw [float_sub_eq]
  exact isNaN_add_left hx (-y)

theorem isNaN_sub_right (x : Float) (hy : y.isNaN = true) : (x - y).isNaN = true := by
  rw [float_sub_eq]
  exact isNaN_add_right x (isNaN_neg hy)

/-- A number that is null, times one that is not finite. -/
theorem IsNull.isNaN_mul (hx : IsNull x) (hy : y.isFinite = false) : (x * y).isNaN = true := by
  refine isNaN_of_unpacked (u := .mul .binary64 x.toModel.unpack y.toModel.unpack) ?_
  have hy' : y.toModel.unpack.isFinite = false := hy
  rcases isNull_iff.1 hx with ⟨s, hs⟩ | hs
  · rw [hs]
    cases h : y.toModel.unpack <;> rw [h] at hy' <;> first | rfl | cases hy'
  · rw [hs]
    cases y.toModel.unpack <;> rfl

theorem exists_unpack_one : ∃ m e hm,
    (1 : Float).toModel.unpack = .finite .positive m e hm :=
  unpack_of_pos isFinite_one (by
    rw [toReal_one]
    exact one_pos)

/-- One over a number that is null. -/
theorem IsNull.one_div_isFinite (hx : IsNull x) : (1 / x).isFinite = false := by
  obtain ⟨m, e, hm, hone⟩ := exists_unpack_one
  have hquotient : (1 / x).toModel.unpack = unpack .binary64 (pack .binary64
      (UnpackedFloat.div .binary64 (1 : Float).toModel.unpack x.toModel.unpack)) := rfl
  show (1 / x).toModel.unpack.isFinite = false
  rw [hquotient, hone]
  rcases isNull_iff.1 hx with ⟨s, hs⟩ | hs
  · rw [hs]
    exact congrArg UnpackedFloat.isFinite (unpack_packedInfinity .binary64 _)
  · rw [hs]
    exact congrArg UnpackedFloat.isFinite UnpackedFloat.unpack_packedNaN

theorem isNaN_or_isFinite_or_isInf (x : Float) :
    x.isNaN = true ∨ x.isFinite = true ∨ x.isInf = true := by
  show x.toModel.unpack.isNaN = true ∨ x.toModel.unpack.isFinite = true
    ∨ x.toModel.unpack.isInf = true
  cases x.toModel.unpack with
  | notANumber => exact .inl rfl
  | zero s => exact .inr (.inl rfl)
  | finite s m e hm => exact .inr (.inl rfl)
  | infinity s => exact .inr (.inr rfl)

theorem isFinite_or_isInf (hx : x.isNaN = false) : x.isFinite = true ∨ x.isInf = true :=
  (isNaN_or_isFinite_or_isInf x).resolve_left (Bool.eq_false_iff.1 hx)

theorem exists_unpack_of_isInf (hx : x.isInf = true) : ∃ s, x.toModel.unpack = .infinity s := by
  have hx : x.toModel.unpack.isInf = true := hx
  cases h : x.toModel.unpack with
  | infinity s => exact ⟨s, rfl⟩
  | _ =>
      rw [h] at hx
      cases hx

theorem not_isFinite_of_isInf (hx : x.isInf = true) : ¬x.isFinite = true := by
  intro hfinite
  have hfinite : x.toModel.unpack.isFinite = true := hfinite
  obtain ⟨s, hs⟩ := exists_unpack_of_isInf hx
  rw [hs] at hfinite
  cases hfinite

theorem isInf_of_isFinite (hx : x.isFinite = true) : x.isInf = false := by
  rw [← Bool.not_eq_true]
  exact fun hinf => not_isFinite_of_isInf hinf hx

theorem not_isFinite_of_isNaN (hx : x.isNaN = true) : ¬x.isFinite = true := by
  intro hfinite
  have hfinite : x.toModel.unpack.isFinite = true := hfinite
  rw [isNaN_iff.1 hx] at hfinite
  cases hfinite

/-- One over an infinity. -/
theorem one_div_of_isInf (hx : x.isInf = true) :
    (1 / x).isFinite = true ∧ IsNull (1 / x) := by
  obtain ⟨m, e, hm, hone⟩ := exists_unpack_one
  obtain ⟨s, hs⟩ := exists_unpack_of_isInf hx
  have hquotient : (1 / x).toModel.unpack = unpack .binary64 (pack .binary64
      (UnpackedFloat.div .binary64 (1 : Float).toModel.unpack x.toModel.unpack)) := rfl
  have hzero : ∃ s, (1 / x).toModel.unpack = .zero s := by
    rw [hquotient, hone, hs]
    exact ⟨_, UnpackedFloat.unpack_packedZero⟩
  refine ⟨?_, isNull_iff.2 (.inl hzero)⟩
  obtain ⟨s, hs⟩ := hzero
  show (1 / x).toModel.unpack.isFinite = true
  rw [hs]
  rfl

/-- Nothing but an infinity is lost in a reciprocal that is finite. -/
theorem isFinite_of_one_div (hinf : x.isInf = false) (h : (1 / x).isFinite = true) :
    x.isFinite = true := by
  rcases isNaN_or_isFinite_or_isInf x with hnan | hfinite | hinf'
  · rw [(isNull_iff.2 (.inr (isNaN_iff.1 hnan))).one_div_isFinite] at h
    cases h
  · exact hfinite
  · rw [hinf] at hinf'
    cases hinf'

end Null

end Binary

/-! ## Complex numbers -/

namespace Complex

/-- The imaginary part is null. -/
def IsReal (z : Complex Float) : Prop := IsNull z.im

/-- Both parts are undefined. -/
structure IsUndefined (z : Complex Float) : Prop where
  re : z.re.isNaN = true
  im : z.im.isNaN = true

variable {z w : Complex Float}

namespace IsReal

theorem toReal_im (h : z.IsReal) (hz : z.isFinite = true) : toReal z.im = 0 :=
  IsNull.toReal_eq_zero h (isFinite_iff.1 hz).2

theorem conj (h : z.IsReal) : z.conj.IsReal := IsNull.neg h

theorem add (hz : z.IsReal) (hw : w.IsReal) : (z + w).IsReal := IsNull.add hz hw

theorem sub (hz : z.IsReal) (hw : w.IsReal) : (z - w).IsReal := IsNull.sub hz hw

theorem mul (hz : z.IsReal) (hw : w.IsReal) : (z * w).IsReal :=
  (IsNull.mul_right z.re hw).add (IsNull.mul_left hz w.re)

theorem scale (h : z.IsReal) (x : Float) : (z.scale x).IsReal := IsNull.mul_left h x

theorem divReal (h : z.IsReal) (x : Float) : (z.divReal x).IsReal := IsNull.div h x

end IsReal

end Complex

/-! ## Reflections of real numbers -/

namespace Reflection

variable {order : Nat} {row : Nat → Complex Float} {v : Reflection Float} {x : Complex Float}

theorem sum_isReal (hpos : 0 < v.order) {f : Nat → Complex Float}
    (hf : ∀ k < v.order, (f k).IsReal) : (v.sum f).IsReal := by
  refine List.foldlRecOn _ _ (hf _ (by omega)) fun z hz k hk => ?_
  exact hz.add (hf k (by have := List.mem_range.1 hk; omega))

theorem coordinate_isReal (hpos : 0 < order) (hrow : ∀ k < order, (row k).IsReal)
    (h : ofRow? order row = some (v, x)) {k : Nat} (hk : k < order) :
    (v.coordinate k).IsReal := by
  have hscaled : ∀ k < order, (scaled order row k).IsReal := fun k hk => (hrow k hk).scale _
  rw [coordinate_of_ofRow? hpos h hk, lengthened]
  refine Complex.IsReal.scale ?_ _
  split
  · exact hscaled k hk
  · rw [head]
    split
    · exact (hscaled _ (by omega)).add (((hscaled _ (by omega)).divReal _).scale _)
    · exact isNull_zero

/-! ## Rows divided by an infinity -/

theorem coordinate_isUndefined (hpos : 0 < order) (hinf : (scaleOf order row).isInf = true)
    (h : ofRow? order row = some (v, x)) {k : Nat} (hk : k < order) :
    (v.coordinate k).IsUndefined := by
  have hre : ∀ k, IsNull (scaled order row k).re := fun k => .mul_right _ (one_div_of_isInf hinf).2
  have him : ∀ k, IsNull (scaled order row k).im := fun k => .mul_right _ (one_div_of_isInf hinf).2
  have hsquare : IsNull (square order row) :=
    List.foldlRecOn _ _ isNull_zero fun y hy l _ =>
      hy.add (((hre l).mul_left _).add ((him l).mul_left _))
  have hlast : IsNull (lastLength order row) := (hre _).hypot (him _)
  have hshrink : (shrink order row).isFinite = false :=
    (hsquare.add (hsquare.sqrt.mul_left _)).sqrt.one_div_isFinite
  have hhead : IsNull (head order row).re ∧ IsNull (head order row).im := by
    rw [head]
    split
    · exact ⟨(hre _).add (((hre _).div _).mul_left _), (him _).add (((him _).div _).mul_left _)⟩
    · exact ⟨hsquare.sqrt, isNull_zero⟩
  rw [coordinate_of_ofRow? hpos h hk, lengthened]
  split
  · exact ⟨(hre k).isNaN_mul hshrink, (him k).isNaN_mul hshrink⟩
  · exact ⟨hhead.1.isNaN_mul hshrink, hhead.2.isNaN_mul hshrink⟩

/-- The first entry of a basis, once such a row was reflected. -/
theorem applyLeft_isNaN {n : Nat} (hpos : 0 < v.order) (hn : 0 < n)
    (h : ∀ k < v.order, (v.coordinate k).IsUndefined) (q : DenseMatrix n n (Complex Float)) :
    (v.applyLeft v.order q 0 0).re.isNaN = true := by
  rw [applyLeft_apply v _ q hn hn, if_pos ⟨hpos, hpos⟩]
  refine isNaN_sub_right _ (isNaN_sub_left ?_ _)
  rw [float_mul_comm]
  exact isNaN_mul_left (h 0 hpos).re _

/-- Nothing that is subtracted makes a number of it again. -/
theorem applyLeft_isNaN_of_isNaN {n : Nat} (hn : 0 < n) {q : DenseMatrix n n (Complex Float)}
    (h : (q 0 0).re.isNaN = true) (v : Reflection Float) :
    (v.applyLeft v.order q 0 0).re.isNaN = true := by
  rw [applyLeft_apply v _ q hn hn]
  split
  · exact isNaN_sub_left h _
  · exact h

end Reflection

end DenseNumeric
