import Mathlib
import DenseNumeric.Proofs.FloatBounds

/-!
# Lower bounds in double precision

How small a result can be when its operands are not smaller than given bounds.
An overflow is no obstacle here: an infinity is above every bound, and the
operations that norms are made of keep it. So `Reaches` holds of infinities, and
nothing has to be asked about the upper end of the range. What is lost at the
lower end is the concern of the bounds, which have to be numbers of the format
wherever something is rounded.
-/

namespace DenseNumeric

namespace Binary

open Float.Model (UnpackedFloat)
open Float.Model.UnpackedFloat (pack unpack)

/-- `x` is at least `c`, or the positive infinity. -/
def Reaches (x : Float) (c : ℝ) : Prop :=
  x.isFinite = true ∧ c ≤ toReal x ∨ x.toModel.unpack = .infinity .positive

variable {x y : Float} {c d r : ℝ}

/-- A positive number, taken apart. -/
theorem unpack_of_pos (hx : x.isFinite = true) (hpos : 0 < toReal x) :
    ∃ m e hm, x.toModel.unpack = .finite .positive m e hm := by
  rw [toReal] at hpos
  obtain ⟨s, hu⟩ | ⟨s, m, e, hm, hu⟩ := (isProper_of_isFinite hx).zero_or_finite
  · rw [hu, valueOf_zero] at hpos
    exact absurd hpos (lt_irrefl 0)
  · cases s with
    | positive => exact ⟨m, e, hm, hu⟩
    | negative =>
        rw [hu, valueOf_finite] at hpos
        have : (0 : ℝ) < m * 2 ^ e := by positivity
        exact absurd hpos (not_lt.2 (neg_nonpos.2 this.le))

/-- An infinity is packed without loss. -/
theorem unpack_pack_infinity {u : UnpackedFloat}
    (hy : y.toModel.unpack = unpack .binary64 (pack .binary64 u)) (hu : u = .infinity .positive) :
    y.toModel.unpack = .infinity .positive := by
  rw [hy, hu]
  exact unpack_packedInfinity _ _

/-- A rounded result is not below a number that the exact one is not below. -/
theorem Rounds.reaches (h : Rounds r y) (hc : IsNumber .binary64 c) (hc0 : 0 ≤ c) (hr : c ≤ r) :
    Reaches y c := by
  obtain ⟨r', hnearest, ⟨-, hfinite, hvalue⟩ | ⟨hlarge, s, hs, hsign⟩⟩ := h
  · exact .inl ⟨hfinite, hvalue ▸ hnearest.ge_of_ge hc hr⟩
  · have hpos : 0 < |r'| := lt_of_lt_of_le (by rw [overflowAt_binary64]; positivity) hlarge
    have hr' : 0 ≤ r' := hc0.trans (hnearest.ge_of_ge hc hr)
    cases s with
    | positive => exact .inr hs
    | negative =>
        have hneg : r' = -|r'| := hsign
        linarith

/-- The positive infinity is above every number. -/
theorem lt_of_unpack_infinity (hx : x.isFinite = true)
    (hy : y.toModel.unpack = .infinity .positive) : x < y := by
  rw [lt_iff_lt_unpack, hy]
  obtain ⟨s, hu⟩ | ⟨s, m, e, hm, hu⟩ := (isProper_of_isFinite hx).zero_or_finite
  · rw [hu]
    rfl
  · rw [hu]
    cases s <;> rfl

theorem reaches_zero : Reaches 0 0 := .inl ⟨isFinite_zero, toReal_zero.ge⟩

theorem reaches_abs_of_isFinite (hx : x.isFinite = true) : Reaches (Arith.abs x) |toReal x| := by
  obtain ⟨habs, hvalue⟩ := abs_spec hx
  exact .inl ⟨habs, hvalue.ge⟩

theorem float_hypot_comm (x y : Float) : Arith.hypot x y = Arith.hypot y x := by
  refine congrArg (fun u => Float.ofModel (.pack u)) ?_
  generalize x.toModel.unpack = u
  generalize y.toModel.unpack = v
  cases u with
  | finite s m e hm =>
      cases v with
      | finite s' m' e' hm' => simp only [hypot, min_comm, Nat.add_comm]
      | zero s' | infinity s' | notANumber => rfl
  | zero s | infinity s | notANumber => cases v <;> rfl

namespace Reaches

theorem mono (h : Reaches x c) (hdc : d ≤ c) : Reaches x d :=
  h.imp (And.imp_right hdc.trans) id

theorem pos (h : Reaches x c) (hc : 0 < c) : (0 : Float) < x := by
  rcases h with ⟨hx, hle⟩ | hinf
  · rw [float_lt_iff isFinite_zero hx, toReal_zero]
    exact hc.trans_le hle
  · exact lt_of_unpack_infinity isFinite_zero hinf

/-- What is not below something that reaches `c` reaches it too. -/
theorem of_not_lt (hx : Reaches x 0) (hy : Reaches y c) (h : ¬x < y) : Reaches x c := by
  rcases hx with ⟨hx, -⟩ | hxinf
  · rcases hy with ⟨hy, hle⟩ | hyinf
    · rw [float_lt_iff hx hy, not_lt] at h
      exact .inl ⟨hx, hle.trans h⟩
    · exact absurd (lt_of_unpack_infinity hx hyinf) h
  · exact .inr hxinf

/-! ## Operations that keep a lower bound -/

/-- A sum is not below a number that the sum of the bounds is not below. -/
theorem add_of_isNumber {e : ℝ} (hx : Reaches x c) (hy : Reaches y d) (he : IsNumber .binary64 e)
    (he0 : 0 ≤ e) (hle : e ≤ c + d) : Reaches (x + y) e := by
  have hsum : (x + y).toModel.unpack = unpack .binary64 (pack .binary64
      (UnpackedFloat.add .binary64 x.toModel.unpack y.toModel.unpack)) := rfl
  rcases hx with ⟨hx, hcx⟩ | hxinf
  · rcases hy with ⟨hy, hdy⟩ | hyinf
    · exact (rounds_add hx hy).reaches he he0 (hle.trans (add_le_add hcx hdy))
    · refine .inr (unpack_pack_infinity hsum ?_)
      obtain ⟨s, hu⟩ | ⟨s, m, e, hm, hu⟩ := (isProper_of_isFinite hx).zero_or_finite <;>
        rw [hu, hyinf] <;> rfl
  · refine .inr (unpack_pack_infinity hsum ?_)
    rcases hy with ⟨hy, -⟩ | hyinf
    · obtain ⟨s, hu⟩ | ⟨s, m, e, hm, hu⟩ := (isProper_of_isFinite hy).zero_or_finite <;>
        rw [hu, hxinf] <;> rfl
    · rw [hxinf, hyinf]
      rfl

theorem add (hx : Reaches x 0) (hy : Reaches y 0) : Reaches (x + y) 0 :=
  hx.add_of_isNumber hy (isNumber_zero _) le_rfl (add_zero 0).ge

/-- A quotient over a positive number. -/
theorem div (hx : Reaches x c) (hy : y.isFinite = true) (hpos : 0 < toReal y)
    (hd : IsNumber .binary64 d) (hd0 : 0 ≤ d) (hdc : d * toReal y ≤ c) : Reaches (x / y) d := by
  rcases hx with ⟨hx, hle⟩ | hinf
  · exact (rounds_div hx hy hpos.ne').reaches hd hd0 ((le_div_iff₀ hpos).2 (hdc.trans hle))
  · obtain ⟨m, e, hm, hu⟩ := unpack_of_pos hy hpos
    have hquotient : (x / y).toModel.unpack = unpack .binary64 (pack .binary64
        (UnpackedFloat.div .binary64 x.toModel.unpack y.toModel.unpack)) := rfl
    refine .inr (unpack_pack_infinity hquotient ?_)
    rw [hinf, hu]
    rfl

/-- A product with a positive number. -/
theorem mul (hy : Reaches y c) (hx : x.isFinite = true) (hpos : 0 < toReal x)
    (hd : IsNumber .binary64 d) (hd0 : 0 ≤ d) (hdc : d ≤ toReal x * c) : Reaches (x * y) d := by
  rcases hy with ⟨hy, hle⟩ | hinf
  · exact (rounds_mul hx hy).reaches hd hd0 (hdc.trans (mul_le_mul_of_nonneg_left hle hpos.le))
  · obtain ⟨m, e, hm, hu⟩ := unpack_of_pos hx hpos
    have hproduct : (x * y).toModel.unpack = unpack .binary64 (pack .binary64
        (UnpackedFloat.mul .binary64 x.toModel.unpack y.toModel.unpack)) := rfl
    refine .inr (unpack_pack_infinity hproduct ?_)
    rw [hinf, hu]
    rfl

/-- A product with the rounding unit. -/
theorem epsilon_mul (hx : Reaches x c) (hd : IsNumber .binary64 d) (hd0 : 0 ≤ d)
    (hdc : d ≤ 2 ^ (-52 : ℤ) * c) : Reaches (Arith.epsilon * x) d := by
  refine hx.mul isFinite_epsilon ?_ hd hd0 ?_ <;> rw [toReal_epsilon]
  exacts [zpow_pos two_pos _, hdc]

theorem sqrt (hx : Reaches x c) (hd : IsNumber .binary64 d) (hd0 : 0 ≤ d) (hdc : d * d ≤ c) :
    Reaches (Arith.sqrt x) d := by
  rcases hx with ⟨hx, hle⟩ | hinf
  · have hdx : d * d ≤ toReal x := hdc.trans hle
    refine (rounds_sqrt hx ((mul_self_nonneg d).trans hdx)).reaches hd hd0 ?_
    rw [← Real.sqrt_mul_self hd0]
    exact Real.sqrt_le_sqrt hdx
  · have hroot : (Arith.sqrt x).toModel.unpack = unpack .binary64 (pack .binary64
        (UnpackedFloat.sqrt .binary64 x.toModel.unpack)) := rfl
    refine .inr (unpack_pack_infinity hroot ?_)
    rw [hinf]
    rfl

/-- A hypotenuse is not below its legs. -/
theorem hypot_left (hx : Reaches x c) (hy : Reaches y 0) : Reaches (Arith.hypot x y) c := by
  have hlength : (Arith.hypot x y).toModel.unpack = unpack .binary64 (pack .binary64
      (hypot .binary64 x.toModel.unpack y.toModel.unpack)) := rfl
  rcases hx with ⟨hx, hle⟩ | hxinf
  · rcases hy with ⟨hy, -⟩ | hyinf
    · have hleg : |toReal x| ≤ √(toReal x ^ 2 + toReal y ^ 2) :=
        Real.abs_le_sqrt (le_add_of_nonneg_right (sq_nonneg _))
      exact ((rounds_hypot hx hy).reaches (isNumber_toReal hx).abs (abs_nonneg _) hleg).mono
        (hle.trans (le_abs_self _))
    · refine .inr (unpack_pack_infinity hlength ?_)
      obtain ⟨s, hu⟩ | ⟨s, m, e, hm, hu⟩ := (isProper_of_isFinite hx).zero_or_finite <;>
        rw [hu, hyinf] <;> rfl
  · refine .inr (unpack_pack_infinity hlength ?_)
    rw [hxinf]
    rfl

theorem hypot_right (hx : Reaches x 0) (hy : Reaches y c) : Reaches (Arith.hypot x y) c :=
  float_hypot_comm y x ▸ hy.hypot_left hx

end Reaches

end Binary

open Binary

/-! ## Lengths -/

namespace Complex

variable {z : Complex Float}

theorem reaches_taxicab (hz : z.isFinite = true) : Reaches z.taxicab 0 := by
  obtain ⟨hre, him⟩ := isFinite_iff.1 hz
  exact ((reaches_abs_of_isFinite hre).mono (abs_nonneg _)).add
    ((reaches_abs_of_isFinite him).mono (abs_nonneg _))

theorem reaches_magnitude (hz : z.isFinite = true) :
    Reaches z.magnitude 0 ∧ Reaches z.magnitude |toReal z.re| ∧
      Reaches z.magnitude |toReal z.im| := by
  obtain ⟨hre, him⟩ := isFinite_iff.1 hz
  have hround := rounds_hypot hre him
  refine ⟨?_, ?_, ?_⟩
  · exact hround.reaches (isNumber_zero _) le_rfl (Real.sqrt_nonneg _)
  · refine hround.reaches (isNumber_toReal hre).abs (abs_nonneg _) (Real.abs_le_sqrt ?_)
    exact le_add_of_nonneg_right (sq_nonneg _)
  · refine hround.reaches (isNumber_toReal him).abs (abs_nonneg _) (Real.abs_le_sqrt ?_)
    exact le_add_of_nonneg_left (sq_nonneg _)

end Complex

/-- The fold that measures a list keeps what has been reached. -/
theorem reaches_foldl_hypot {zs : List (Complex Float)} (hzs : ∀ z ∈ zs, z.isFinite = true)
    {x : Float} {c : ℝ} (hx : Reaches x c) :
    Reaches (zs.foldl (fun acc z => Arith.hypot acc z.magnitude) x) c := by
  induction zs generalizing x with
  | nil => exact hx
  | cons z zs ih =>
      have hz := Complex.reaches_magnitude (hzs z List.mem_cons_self)
      exact ih (fun w hw => hzs w (List.mem_cons_of_mem z hw)) (hx.hypot_left hz.1)

/-- A length is not below any part of what is measured. -/
theorem DenseMatrix.reaches_lengthOf {zs : List (Complex Float)}
    (hzs : ∀ z ∈ zs, z.isFinite = true) {z : Complex Float} (hz : z ∈ zs) {c : ℝ}
    (hc : c ≤ |toReal z.re| ∨ c ≤ |toReal z.im|) : Reaches (lengthOf zs) c := by
  obtain ⟨ws, vs, rfl⟩ := List.append_of_mem hz
  obtain ⟨-, hre, him⟩ := Complex.reaches_magnitude (hzs z hz)
  have hstart : Reaches (ws.foldl (fun acc z => Arith.hypot acc z.magnitude) 0) 0 :=
    reaches_foldl_hypot (fun w hw => hzs w (List.mem_append_left _ hw)) reaches_zero
  rw [lengthOf, List.foldl_append, List.foldl_cons]
  refine reaches_foldl_hypot
    (fun w hw => hzs w (List.mem_append_right _ (List.mem_cons_of_mem z hw))) ?_
  exact hstart.hypot_right (hc.elim hre.mono him.mono)

end DenseNumeric
