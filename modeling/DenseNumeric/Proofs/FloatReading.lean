import Mathlib
import DenseNumeric.Proofs.UnpackedOperations
import DenseNumeric.Proofs.UnpackedPacking

/-!
# Double precision as rounded real arithmetic

A finite double stands for a real number, `toReal`. Each operation on finite
doubles rounds the exact result (`Rounds`): to a nearest number, or to an
infinity if that is out of range. As long as exact results are below `safeBound`
nothing overflows, and then a double is as good as a real number that is near
to the exact one (`RoundsTo`).
-/

namespace DenseNumeric.Binary

open Float.Model (Format UnpackedFloat)
open Float.Model.UnpackedFloat (pack unpack pack_unpack_of_valid)

/-! ## Doubles -/

/-- The real number that a double stands for; zero where it is none. -/
noncomputable def toReal (x : Float) : ℝ := valueOf x.toModel.unpack

section Doubles

variable {x y : Float}

theorem isProper_of_isFinite (h : x.isFinite = true) : IsProper .binary64 x.toModel.unpack :=
  isProper_unpack (by decide) h

theorem isNumber_toReal (h : x.isFinite = true) : IsNumber .binary64 (toReal x) :=
  (isProper_of_isFinite h).isNumber

theorem overflowAt_binary64 : overflowAt .binary64 = 2 ^ 1024 := by
  have : (2 : ℤ) ^ Format.binary64.exponentBits - 1 - Format.binary64.exponentBias
      = (1024 : ℕ) := by decide
  rw [overflowAt, this, zpow_natCast, Nat.cast_ofNat]

theorem abs_toReal_lt (h : x.isFinite = true) : |toReal x| < 2 ^ 1024 := by
  have hpack : pack .binary64 x.toModel.unpack = x.toModel.toBits.toBitVec :=
    pack_unpack_of_valid x.toModel.valid
  rcases unpack_pack (by decide) (isProper_of_isFinite h) with ⟨hlt, -⟩ | ⟨-, s, hs, -⟩
  · rwa [overflowAt_binary64] at hlt
  · rw [hpack] at hs
    have hinf : x.toModel.unpack = .infinity s := hs
    have hfinite : x.toModel.unpack.isFinite = true := h
    rw [hinf] at hfinite
    cases hfinite

end Doubles

/-! ## Rounding to double precision -/

/-- `y` is what `x` is rounded to: a nearest number, or the infinity on its
side if that is out of range. -/
def Rounds (x : ℝ) (y : Float) : Prop :=
  ∃ r, IsNearest .binary64 x r ∧
    (|r| < overflowAt .binary64 ∧ y.isFinite = true ∧ toReal y = r ∨
      overflowAt .binary64 ≤ |r| ∧ ∃ s, y.toModel.unpack = .infinity s ∧ r = signed s |r|)

/-- Exact results below this bound are not rounded to an infinity. -/
noncomputable def safeBound : ℝ := ((2 : ℕ) : ℝ) ^ 1023

theorem safeBound_eq : safeBound = 2 ^ 1023 := by rw [safeBound, Nat.cast_ofNat]

theorem safeBound_pos : 0 < safeBound := safeBound_eq ▸ pow_pos two_pos 1023

theorem two_pow_lt_safeBound {k : ℕ} (hk : k < 1023) : 2 ^ k < safeBound :=
  safeBound_eq ▸ pow_lt_pow_right₀ one_lt_two hk

/-- `y` is finite, and a nearest number to `x`. -/
structure RoundsTo (x : ℝ) (y : Float) : Prop where
  isFinite : y.isFinite = true
  isNearest : IsNearest .binary64 x (toReal y)

section Rounds

variable {r : ℝ} {x y z : Float}

theorem IsRounded.rounds {u : UnpackedFloat} (h : IsRounded .binary64 r u)
    (hy : y.toModel.unpack = unpack .binary64 (pack .binary64 u)) : Rounds r y := by
  refine ⟨valueOf u, h.isNearest, ?_⟩
  rcases unpack_pack (by decide) h.isProper with ⟨hlt, heq⟩ | ⟨hle, s, hs, hsign⟩
  · left
    have hyu : y.toModel.unpack = u := hy.trans heq
    refine ⟨hlt, ?_, congrArg valueOf hyu⟩
    show y.toModel.unpack.isFinite = true
    rw [hyu]
    cases u with
    | finite s m e hm => rfl
    | zero s => rfl
    | infinity s => exact h.isProper.elim
    | notANumber => exact h.isProper.elim
  · exact .inr ⟨hle, s, hy.trans hs, hsign⟩

/-- Results that are not too large are finite. -/
theorem Rounds.roundsTo (h : Rounds r y) (hr : |r| < safeBound) : RoundsTo r y := by
  obtain ⟨r', hnearest, ⟨-, hfinite, hvalue⟩ | ⟨hlarge, -⟩⟩ := h
  · exact ⟨hfinite, hvalue ▸ hnearest⟩
  · have hdouble : |r'| < overflowAt .binary64 := by
      calc |r'| ≤ 2 * |r| := hnearest.abs_le_two_mul
        _ < 2 * safeBound := mul_lt_mul_of_pos_left hr two_pos
        _ = overflowAt .binary64 := by rw [safeBound_eq, overflowAt_binary64, ← pow_succ' 2 1023]
    exact absurd hlarge (not_le.2 hdouble)

theorem Rounds.of_isFinite (h : Rounds r y) (hy : y.isFinite = true) : RoundsTo r y := by
  obtain ⟨r', hnearest, ⟨-, hfinite, hvalue⟩ | ⟨-, s, hs, -⟩⟩ := h
  · exact ⟨hfinite, hvalue ▸ hnearest⟩
  · have hfinite : y.toModel.unpack.isFinite = true := hy
    rw [hs] at hfinite
    cases hfinite

/-! ## Operations -/

theorem rounds_add (hx : x.isFinite = true) (hy : y.isFinite = true) :
    Rounds (toReal x + toReal y) (x + y) :=
  (add_isRounded (isProper_of_isFinite hx) (isProper_of_isFinite hy)).rounds rfl

theorem rounds_sub (hx : x.isFinite = true) (hy : y.isFinite = true) :
    Rounds (toReal x - toReal y) (x - y) :=
  (sub_isRounded (isProper_of_isFinite hx) (isProper_of_isFinite hy)).rounds rfl

theorem rounds_mul (hx : x.isFinite = true) (hy : y.isFinite = true) :
    Rounds (toReal x * toReal y) (x * y) :=
  (mul_isRounded (by decide) (isProper_of_isFinite hx) (isProper_of_isFinite hy)).rounds rfl

theorem rounds_div (hx : x.isFinite = true) (hy : y.isFinite = true) (h0 : toReal y ≠ 0) :
    Rounds (toReal x / toReal y) (x / y) :=
  (div_isRounded (isProper_of_isFinite hx) (isProper_of_isFinite hy) h0).rounds rfl

theorem rounds_sqrt (hx : x.isFinite = true) (h0 : 0 ≤ toReal x) :
    Rounds √(toReal x) (Arith.sqrt x) :=
  (sqrt_isRounded (isProper_of_isFinite hx) h0).rounds rfl

theorem rounds_hypot (hx : x.isFinite = true) (hy : y.isFinite = true) :
    Rounds √(toReal x ^ 2 + toReal y ^ 2) (Arith.hypot x y) :=
  (hypot_isRounded (isProper_of_isFinite hx) (isProper_of_isFinite hy)).rounds rfl

theorem RoundsTo.of_isNumber (h : RoundsTo r y) (hr : IsNumber .binary64 r) : toReal y = r :=
  h.isNearest.eq_of_isNumber hr

/-! ## Constants and integers -/

/-- A double with a significand of one digit. -/
theorem toReal_of_unpack {e k : ℤ} {hm : 0 < 2 ^ 52}
    (h : x.toModel.unpack = .finite .positive (2 ^ 52) e hm) (hk : e + 52 = k) :
    x.isFinite = true ∧ toReal x = 2 ^ k := by
  constructor
  · show x.toModel.unpack.isFinite = true
    rw [h]
    rfl
  · rw [toReal, h, ← hk, zpow_add₀ two_ne_zero, mul_comm]
    show ((2 ^ 52 : ℕ) : ℝ) * 2 ^ e = 2 ^ (52 : ℤ) * 2 ^ e
    norm_num

@[simp] theorem isFinite_zero : (0 : Float).isFinite = true := rfl

@[simp] theorem toReal_zero : toReal 0 = 0 := rfl

@[simp] theorem isFinite_one : (1 : Float).isFinite = true := rfl

@[simp] theorem toReal_one : toReal 1 = 1 := (toReal_of_unpack (k := 0) rfl rfl).2

@[simp] theorem isFinite_epsilon : (Arith.epsilon : Float).isFinite = true := rfl

theorem toReal_epsilon : toReal Arith.epsilon = 2 ^ (-52 : ℤ) :=
  (toReal_of_unpack (e := -104) rfl (by norm_num)).2

@[simp] theorem isFinite_minPositive : (Arith.minPositive : Float).isFinite = true := rfl

theorem toReal_minPositive : toReal Arith.minPositive = 2 ^ (-1022 : ℤ) :=
  (toReal_of_unpack (e := -1074) rfl (by norm_num)).2

/-- A product with the rounding unit is always in range. -/
theorem epsilon_mul_roundsTo (hx : x.isFinite = true) :
    RoundsTo (2 ^ (-52 : ℤ) * toReal x) (Arith.epsilon * x) := by
  have hround := rounds_mul isFinite_epsilon hx
  rw [toReal_epsilon] at hround
  refine hround.roundsTo ?_
  have hunit : (2 : ℝ) ^ (-52 : ℤ) < 1 / 2 := by norm_num
  rw [abs_mul, abs_of_pos (zpow_pos two_pos _), safeBound_eq]
  calc 2 ^ (-52 : ℤ) * |toReal x| < 1 / 2 * 2 ^ 1024 :=
        mul_lt_mul'' hunit (abs_toReal_lt hx) (zpow_pos two_pos _).le (abs_nonneg _)
    _ = 2 ^ 1023 := by rw [pow_succ' 2 1023, one_div, inv_mul_cancel_left₀ two_ne_zero]

theorem isNumber_natCast_mul_two_zpow {n : ℕ} (h : n < 2 ^ 53) {e : ℤ}
    (he : Format.binary64.minExponent ≤ e) : IsNumber .binary64 (n * 2 ^ e) := by
  refine isNumber_iff.2 ⟨n, e, ?_, he, by rw [Int.cast_natCast]⟩
  rw [Nat.abs_cast]
  exact_mod_cast h

theorem isNumber_natCast {n : ℕ} (h : n < 2 ^ 53) : IsNumber .binary64 n := by
  have := isNumber_natCast_mul_two_zpow h (e := 0) (by decide)
  rwa [zpow_zero, mul_one] at this

theorem natCast_lt_safeBound {n : ℕ} (h : n < 2 ^ 53) : |(n : ℝ)| < safeBound := by
  rw [Nat.abs_cast]
  calc (n : ℝ) < 2 ^ 53 := by exact_mod_cast h
    _ < safeBound := two_pow_lt_safeBound (by decide)

theorem roundsTo_toUInt64 {n : ℕ} (h : n < 2 ^ 53) : RoundsTo n n.toUInt64.toFloat := by
  have hn : n.toUInt64.toNat = n := Nat.mod_eq_of_lt (h.trans (by decide))
  have hround : Rounds ((n : ℤ) : ℝ) n.toUInt64.toFloat := by
    have := (ofInt_isRounded .binary64 n.toUInt64.toNat).rounds (y := n.toUInt64.toFloat) rfl
    rwa [hn] at this
  rw [Int.cast_natCast] at hround
  exact hround.roundsTo (natCast_lt_safeBound h)

/-- Integers of at most 53 digits are exact. -/
theorem roundsTo_natCast {n : ℕ} (h : n < 2 ^ 53) : RoundsTo n (n : Float) := by
  have hcast : (n : Float) = n.toUInt64.toFloat * 1 := by
    show Float.ofScientific n false 0 = _
    rw [Float.ofScientific, dif_pos ⟨h, by decide⟩]
    rfl
  have hexact := roundsTo_toUInt64 h
  have hmul := rounds_mul hexact.isFinite isFinite_one
  rw [toReal_one, mul_one, hexact.of_isNumber (isNumber_natCast h), ← hcast] at hmul
  exact hmul.roundsTo (natCast_lt_safeBound h)

theorem toReal_natCast {n : ℕ} (h : n < 2 ^ 53) : toReal (n : Float) = n :=
  (roundsTo_natCast h).of_isNumber (isNumber_natCast h)

/-! ## Signs and comparisons -/

/-- Numbers that are packed already are packed without loss. -/
theorem unpack_pack_of_isFinite {u : UnpackedFloat} (hu : IsProper .binary64 u)
    (hx : x.isFinite = true) (habs : |valueOf u| = |toReal x|)
    (hy : y.toModel.unpack = unpack .binary64 (pack .binary64 u)) :
    y.isFinite = true ∧ toReal y = valueOf u := by
  obtain ⟨r, hnearest, ⟨-, hfinite, hvalue⟩ | ⟨hle, -⟩⟩ := hu.isRounded.rounds hy
  · exact ⟨hfinite, hvalue.trans (hnearest.eq_of_isNumber hu.isNumber)⟩
  · rw [hnearest.eq_of_isNumber hu.isNumber, habs] at hle
    exact absurd (abs_toReal_lt hx) (not_lt.2 hle)

theorem neg_spec (hx : x.isFinite = true) : (-x).isFinite = true ∧ toReal (-x) = -toReal x := by
  have hvalue := valueOf_neg x.toModel.unpack
  have := unpack_pack_of_isFinite (isProper_of_isFinite hx).neg hx
    (by rw [hvalue, abs_neg]; rfl) (y := -x) rfl
  rwa [hvalue] at this

theorem abs_spec (hx : x.isFinite = true) :
    (Arith.abs x).isFinite = true ∧ toReal (Arith.abs x) = |toReal x| := by
  have hvalue := valueOf_abs x.toModel.unpack
  have := unpack_pack_of_isFinite (isProper_of_isFinite hx).abs hx
    (by rw [hvalue, abs_abs]; rfl) (y := Arith.abs x) rfl
  rwa [hvalue] at this

theorem lt_iff_lt_unpack (x y : Float) :
    x < y ↔ x.toModel.unpack.lt y.toModel.unpack = true := decide_eq_true_iff

theorem float_lt_iff (hx : x.isFinite = true) (hy : y.isFinite = true) :
    x < y ↔ toReal x < toReal y :=
  (lt_iff_lt_unpack x y).trans (lt_iff (isProper_of_isFinite hx) (isProper_of_isFinite hy))

theorem float_beq_iff (hx : x.isFinite = true) (hy : y.isFinite = true) :
    (x == y) = true ↔ toReal x = toReal y :=
  beq_iff (isProper_of_isFinite hx) (isProper_of_isFinite hy)

theorem toReal_ne_zero_of_beq (hx : x.isFinite = true) (h0 : (x == 0) = false) :
    toReal x ≠ 0 := by
  intro h
  rw [(float_beq_iff hx isFinite_zero).2 (h.trans toReal_zero.symm)] at h0
  cases h0

theorem larger_spec (hx : x.isFinite = true) (hy : y.isFinite = true) :
    (Arith.larger x y).isFinite = true ∧
      toReal (Arith.larger x y) = max (toReal x) (toReal y) := by
  unfold Arith.larger
  have hxx : (x == x) = true := (float_beq_iff hx hx).2 rfl
  rw [if_pos hxx]
  split
  · rename_i h
    exact ⟨hy, (max_eq_right ((float_lt_iff hx hy).1 h).le).symm⟩
  · rename_i h
    exact ⟨hx, (max_eq_left (not_lt.1 fun h' => h ((float_lt_iff hx hy).2 h'))).symm⟩

/-! ## What finite results say about operands -/

theorem isFinite_unpack_pack_hypot {u v : UnpackedFloat}
    (h : (unpack .binary64 (pack .binary64 (hypot .binary64 u v))).isFinite = true) :
    u.isFinite = true ∧ v.isFinite = true := by
  cases u <;> cases v <;> first
    | exact ⟨rfl, rfl⟩
    | simp [hypot, pack, UnpackedFloat.isFinite] at h

/-- A finite hypotenuse is not shorter than its legs. -/
theorem abs_le_hypot (h : (Arith.hypot x y).isFinite = true) :
    x.isFinite = true ∧ y.isFinite = true ∧ |toReal x| ≤ toReal (Arith.hypot x y) ∧
      |toReal y| ≤ toReal (Arith.hypot x y) := by
  obtain ⟨hx, hy⟩ : x.isFinite = true ∧ y.isFinite = true := isFinite_unpack_pack_hypot h
  have hround := (rounds_hypot hx hy).of_isFinite h
  refine ⟨hx, hy, ?_, ?_⟩
  · refine hround.isNearest.ge_of_ge (isNumber_toReal hx).abs (Real.abs_le_sqrt ?_)
    exact le_add_of_nonneg_right (sq_nonneg _)
  · refine hround.isNearest.ge_of_ge (isNumber_toReal hy).abs (Real.abs_le_sqrt ?_)
    exact le_add_of_nonneg_left (sq_nonneg _)

theorem isFinite_unpack_pack_div {u v : UnpackedFloat} (hv : v.isFinite = true)
    (h : (unpack .binary64 (pack .binary64 (UnpackedFloat.div .binary64 u v))).isFinite = true) :
    u.isFinite = true := by
  cases u with
  | finite s m e hm => rfl
  | zero s => rfl
  | infinity s =>
      cases v with
      | finite s' m' e' hm' => simp [UnpackedFloat.div, pack, UnpackedFloat.isFinite] at h
      | zero s' => simp [UnpackedFloat.div, pack, UnpackedFloat.isFinite] at h
      | infinity s' => cases hv
      | notANumber => cases hv
  | notANumber => simp [UnpackedFloat.div, pack, UnpackedFloat.isFinite] at h

theorem isFinite_of_div (hy : y.isFinite = true) (h : (x / y).isFinite = true) :
    x.isFinite = true :=
  isFinite_unpack_pack_div hy h

theorem isFinite_unpack_of_beq_zero {u : UnpackedFloat} {s}
    (h : u.beq (.zero s) = true) : u.isFinite = true := by
  cases u with
  | infinity s' => cases s' <;> cases h
  | notANumber => cases h
  | zero s' => rfl
  | finite s' m e hm => rfl

theorem isFinite_of_beq_zero (h : (x == 0) = true) : x.isFinite = true :=
  isFinite_unpack_of_beq_zero h

/-- Only numbers that are at most half of the smallest one are lost. -/
theorem RoundsTo.abs_le_of_eq_zero (h : RoundsTo r y) (h0 : toReal y = 0) :
    |r| ≤ 2 ^ (-1075 : ℤ) := by
  have hsmallest : IsNumber .binary64 (2 ^ (-1074 : ℤ)) := isNumber_two_zpow (by decide)
  have hhalf : (2 : ℝ) ^ (-1074 : ℤ) = 2 * 2 ^ (-1075 : ℤ) := by
    rw [← zpow_one_add₀ two_ne_zero]
    norm_num
  have hpos : (0 : ℝ) < 2 ^ (-1074 : ℤ) := zpow_pos two_pos _
  have below {r : ℝ} (hr : 0 ≤ r) (h : IsNearest .binary64 r 0) : r ≤ 2 ^ (-1075 : ℤ) := by
    have hle := h.le _ hsmallest
    rw [sub_zero, abs_of_nonneg hr] at hle
    rcases abs_cases (r - 2 ^ (-1074 : ℤ)) with ⟨habs, -⟩ | ⟨habs, -⟩ <;> linarith
  have hnearest := h.isNearest
  rw [h0] at hnearest
  rcases le_total 0 r with hr | hr
  · rw [abs_of_nonneg hr]
    exact below hr hnearest
  · rw [abs_of_nonpos hr]
    exact below (neg_nonneg.2 hr) (by simpa using hnearest.neg)

end Rounds

end DenseNumeric.Binary
