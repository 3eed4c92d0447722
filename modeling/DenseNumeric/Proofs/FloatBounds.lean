import Mathlib
import DenseNumeric.Proofs.FloatLengths

/-!
# Bounds that results keep

How large a result can be when its operands are not larger than given bounds.
A rounded sum is at most the first operand and twice the second, a rounded
product or quotient at most twice the exact one; a factor of at most one does
not make anything larger. What is asked for each time is that the exact result
is below `safeBound`, and then the rounded one is finite.

A complex quotient is the one result that needs more than the sizes of its
operands: the divisor must have a part that is not too small, and the quotient
is then at most `48` times what that part would make of the dividend.
-/

namespace DenseNumeric

open Binary

/-! ## Real results -/

namespace Binary

theorem IsNearest.le_abs_of_le {fmt : Float.Model.Format} {x y z : ℝ} (h : IsNearest fmt x y)
    (hz : IsNumber fmt z) (hzx : z ≤ |x|) : z ≤ |y| := by
  rcases le_total 0 x with hx | hx
  · rw [abs_of_nonneg hx] at hzx
    exact (h.ge_of_ge hz hzx).trans (le_abs_self y)
  · rw [abs_of_nonpos hx] at hzx
    exact (h.neg.ge_of_ge hz hzx).trans (neg_le_abs y)

theorem Rounds.bounded {r c : ℝ} {y : Float} (h : Rounds r y) (hr : |r| ≤ c) (hc : c < safeBound) :
    Bounded y (2 * c) := by
  have hround := h.roundsTo (hr.trans_lt hc)
  exact ⟨hround.isFinite, hround.isNearest.abs_le_two_mul.trans (by linarith)⟩

/-- With a number as the bound, nothing is lost. -/
theorem Rounds.bounded_of_isNumber {r c : ℝ} {y : Float} (h : Rounds r y) (hr : |r| ≤ c)
    (hc : IsNumber .binary64 c) (hsize : c < safeBound) : Bounded y c := by
  have hround := h.roundsTo (hr.trans_lt hsize)
  exact ⟨hround.isFinite, hround.isNearest.abs_le_of_le hc hr⟩

theorem isNumber_one {fmt : Float.Model.Format} (hfmt : 2 ≤ fmt.exponentBits) : IsNumber fmt 1 :=
  zpow_zero (2 : ℝ) ▸ isNumber_two_zpow (minExponent_nonpos hfmt)

theorem one_lt_safeBound : 1 < safeBound := pow_zero (2 : ℝ) ▸ two_pow_lt_safeBound (by decide)

namespace Bounded

variable {x y : Float} {a b : ℝ}

theorem nonneg (h : Bounded x a) : 0 ≤ a := (abs_nonneg _).trans h.abs_le

theorem neg (h : Bounded x a) : Bounded (-x) a := by
  obtain ⟨hfinite, hvalue⟩ := neg_spec h.isFinite
  refine ⟨hfinite, ?_⟩
  rw [hvalue, abs_neg]
  exact h.abs_le

theorem add (hx : Bounded x a) (hy : Bounded y b) (hsize : a + b < safeBound) :
    Bounded (x + y) (a + 2 * b) := by
  have hle : |toReal x + toReal y| ≤ a + b :=
    (abs_add_le _ _).trans (add_le_add hx.abs_le hy.abs_le)
  have hround := (rounds_add hx.isFinite hy.isFinite).roundsTo (hle.trans_lt hsize)
  refine ⟨hround.isFinite, ?_⟩
  have := hround.isNearest.abs_sum_le (isNumber_toReal hx.isFinite)
  linarith [hx.abs_le, hy.abs_le]

theorem sub (hx : Bounded x a) (hy : Bounded y b) (hsize : a + b < safeBound) :
    Bounded (x - y) (a + 2 * b) := by
  have hle : |toReal x - toReal y| ≤ a + b :=
    (abs_sub _ _).trans (add_le_add hx.abs_le hy.abs_le)
  have hround := (rounds_sub hx.isFinite hy.isFinite).roundsTo (hle.trans_lt hsize)
  refine ⟨hround.isFinite, ?_⟩
  have hnearest := hround.isNearest
  rw [sub_eq_add_neg] at hnearest
  have := hnearest.abs_sum_le (isNumber_toReal hx.isFinite)
  rw [abs_neg] at this
  linarith [hx.abs_le, hy.abs_le]

theorem mul (hx : Bounded x a) (hy : Bounded y b) (hsize : a * b < safeBound) :
    Bounded (x * y) (2 * (a * b)) := by
  refine (rounds_mul hx.isFinite hy.isFinite).bounded ?_ hsize
  rw [abs_mul]
  exact mul_le_mul hx.abs_le hy.abs_le (abs_nonneg _) hx.nonneg

/-- A factor of at most one. -/
theorem mul_of_le_one (hx : Bounded x a) (hy : Bounded y 1) (hsize : a < safeBound) :
    Bounded (x * y) a := by
  have hle : |toReal x * toReal y| ≤ |toReal x| := by
    rw [abs_mul]
    exact mul_le_of_le_one_right (abs_nonneg _) hy.abs_le
  exact ((rounds_mul hx.isFinite hy.isFinite).bounded_of_isNumber hle
    (isNumber_toReal hx.isFinite).abs (hx.abs_le.trans_lt hsize)).mono hx.abs_le

theorem div {g : ℝ} (hx : Bounded x a) (hy : y.isFinite = true) (hg : 0 < g) (hgy : g ≤ toReal y)
    (hsize : a / g < safeBound) : Bounded (x / y) (2 * (a / g)) := by
  have hpos : 0 < toReal y := hg.trans_le hgy
  refine (rounds_div hx.isFinite hy hpos.ne').bounded ?_ hsize
  rw [abs_div, abs_of_pos hpos]
  exact div_le_div₀ hx.nonneg hx.abs_le hg hgy

/-- A divisor that is no smaller than the dividend. -/
theorem div_of_le (hx : Bounded x a) (hy : y.isFinite = true) (hpos : 0 < toReal y)
    (hxy : |toReal x| ≤ toReal y) : Bounded (x / y) 1 := by
  refine (rounds_div hx.isFinite hy hpos.ne').bounded_of_isNumber ?_ (isNumber_one (by decide))
    one_lt_safeBound
  rw [abs_div, abs_of_pos hpos]
  exact (div_le_one hpos).2 hxy

end Bounded

end Binary

/-- Rounding to the precision of a complex element type. -/
theorem Binary.Bounded.quantize {x : Float} {dtype : DType} (hdtype : dtype.isComplex = true)
    (hx : Bounded x 1) : Bounded (dtype.quantize x) 1 := by
  have hsingle : Bounded (widen (narrow x)) 1 := by
    have hround : IsRounded .binary32 (toReal x) (roundTo .binary32 x.toModel.unpack) :=
      roundTo_isRounded (isProper_of_isFinite hx.isFinite)
    have hle := hround.isNearest.abs_le_of_le (isNumber_one (by decide)) hx.abs_le
    have hunpack : (narrow x).toModel.unpack = roundTo .binary32 x.toModel.unpack := by
      rcases unpack_pack (by decide) hround.isProper with ⟨-, heq⟩ | ⟨hlarge, -⟩
      · exact heq
      · have : (1 : ℝ) < overflowAt .binary32 := one_lt_zpow₀ one_lt_two (by decide)
        linarith
    have hwiden : Rounds (valueOf (roundTo .binary32 x.toModel.unpack)) (widen (narrow x)) := by
      have hproper : IsProper .binary32 (narrow x).toModel.unpack := by
        rw [hunpack]
        exact hround.isProper
      rw [← hunpack]
      exact (roundTo_isRounded hproper).rounds rfl
    exact hwiden.bounded_of_isNumber hle (isNumber_one (by decide)) one_lt_safeBound
  cases dtype with
  | c64 => exact hsingle
  | c128 => exact hx
  | f32 => cases hdtype
  | f64 => cases hdtype
  | i32 => cases hdtype

/-! ## Complex results -/

namespace Complex.IsWithin

variable {z w : Complex Float} {a b : ℝ}

theorem isFinite (h : z.IsWithin a) : z.isFinite = true :=
  isFinite_iff.2 ⟨h.re.isFinite, h.im.isFinite⟩

theorem nonneg (h : z.IsWithin a) : 0 ≤ a := h.re.nonneg

theorem one : (1 : Complex Float).IsWithin 1 := by
  refine ⟨⟨isFinite_one, ?_⟩, (zero zero_le_one).im⟩
  show |toReal 1| ≤ 1
  rw [toReal_one, abs_one]

theorem neg (h : z.IsWithin a) : (-z).IsWithin a := ⟨h.re.neg, h.im.neg⟩

theorem conj (h : z.IsWithin a) : z.conj.IsWithin a := ⟨h.re, h.im.neg⟩

theorem add (hz : z.IsWithin a) (hw : w.IsWithin b) (hsize : a + b < safeBound) :
    (z + w).IsWithin (a + 2 * b) :=
  ⟨hz.re.add hw.re hsize, hz.im.add hw.im hsize⟩

theorem sub (hz : z.IsWithin a) (hw : w.IsWithin b) (hsize : a + b < safeBound) :
    (z - w).IsWithin (a + 2 * b) :=
  ⟨hz.re.sub hw.re hsize, hz.im.sub hw.im hsize⟩

theorem mul (hz : z.IsWithin a) (hw : w.IsWithin b) (hsize : 4 * (a * b) < safeBound) :
    (z * w).IsWithin (6 * (a * b)) := by
  have hab := mul_nonneg hz.nonneg hw.nonneg
  have hterm : a * b < safeBound := by linarith
  have hsum : 2 * (a * b) + 2 * (a * b) < safeBound := by linarith
  have hbound : 2 * (a * b) + 2 * (2 * (a * b)) = 6 * (a * b) := by ring
  constructor
  · exact hbound ▸ (hz.re.mul hw.re hterm).sub (hz.im.mul hw.im hterm) hsum
  · exact hbound ▸ (hz.re.mul hw.im hterm).add (hz.im.mul hw.re hterm) hsum

/-- A divisor that is no smaller than either part. -/
theorem divReal (hz : z.IsWithin a) {x : Float} (hx : x.isFinite = true) (hpos : 0 < toReal x)
    (hax : a ≤ toReal x) : (z.divReal x).IsWithin 1 :=
  ⟨hz.re.div_of_le hx hpos (hz.re.abs_le.trans hax),
    hz.im.div_of_le hx hpos (hz.im.abs_le.trans hax)⟩

end Complex.IsWithin

/-- A fold that adds up terms within `c`, or leaves some of them out. -/
theorem Complex.isWithin_foldl {α : Type} {xs : List α} {f : Complex Float → α → Complex Float}
    {b c : ℝ} {z : Complex Float} (hz : z.IsWithin b) (hc : 0 ≤ c)
    (hstep : ∀ x ∈ xs, ∀ b z, z.IsWithin b → b + c < safeBound → (f z x).IsWithin (b + 2 * c))
    (hsize : b + 2 * c * xs.length < safeBound) :
    (xs.foldl f z).IsWithin (b + 2 * c * xs.length) := by
  induction xs generalizing b z with
  | nil => simpa using hz
  | cons x xs ih =>
      rw [List.length_cons, Nat.cast_succ] at hsize ⊢
      have hlen : (0 : ℝ) ≤ xs.length := Nat.cast_nonneg _
      have hrest : 0 ≤ 2 * c * xs.length := by positivity
      have hfirst := hstep x List.mem_cons_self b z hz (by linarith)
      have hbound : b + 2 * c * (xs.length + 1) = b + 2 * c + 2 * c * xs.length := by ring
      rw [hbound] at hsize ⊢
      exact ih hfirst (fun y hy => hstep y (List.mem_cons_of_mem x hy)) hsize

/-! ## Quotients -/

namespace Binary

theorem isNumber_half : IsNumber .binary64 (1 / 2) := by
  have hvalue : (2 : ℝ) ^ (-1 : ℤ) = 1 / 2 := by norm_num
  exact hvalue ▸ isNumber_two_zpow (by decide)

theorem isNumber_quarter : IsNumber .binary64 (1 / 4) := by
  have hvalue : (2 : ℝ) ^ (-2 : ℤ) = 1 / 4 := by norm_num
  exact hvalue ▸ isNumber_two_zpow (by decide)

theorem isNumber_two : IsNumber .binary64 2 := by
  have : IsNumber .binary64 (2 * 1) := (isNumber_one (by decide)).mul_two
  rwa [mul_one] at this

theorem two_lt_safeBound : 2 < safeBound := pow_one (2 : ℝ) ▸ two_pow_lt_safeBound (by decide)

theorem half_le_abs_div {x s : Float} (hx : x.isFinite = true) (hs : s.isFinite = true)
    (hpos : 0 < toReal s) (hsx : toReal s ≤ 2 * |toReal x|) (hle : |toReal x| ≤ toReal s) :
    1 / 2 ≤ |toReal (x / s)| := by
  have hbounded : Bounded (x / s) 1 := Bounded.div_of_le ⟨hx, le_rfl⟩ hs hpos hle
  have hround := (rounds_div hx hs hpos.ne').of_isFinite hbounded.isFinite
  refine hround.isNearest.le_abs_of_le isNumber_half ?_
  rw [abs_div, abs_of_pos hpos, le_div_iff₀ hpos]
  linarith

theorem Bounded.sq {x : Float} (hx : Bounded x 1) :
    Bounded (x * x) 1 ∧ 0 ≤ toReal (x * x) ∧ (1 / 2 ≤ |toReal x| → 1 / 4 ≤ toReal (x * x)) := by
  have hmul := hx.mul_of_le_one hx one_lt_safeBound
  have hround := (rounds_mul hx.isFinite hx.isFinite).of_isFinite hmul.isFinite
  refine ⟨hmul, hround.isNearest.nonneg (mul_self_nonneg _), fun hhalf => ?_⟩
  refine hround.isNearest.ge_of_ge isNumber_quarter ?_
  rw [← abs_mul_abs_self]
  nlinarith

/-- The sum of two squares, one of which is at least a quarter. -/
theorem sum_sq_bounds {c d : Float} (hc : Bounded c 1) (hd : Bounded d 1)
    (h : 1 / 2 ≤ |toReal c| ∨ 1 / 2 ≤ |toReal d|) :
    (c * c + d * d).isFinite = true ∧ 1 / 4 ≤ toReal (c * c + d * d) ∧
      toReal (c * c + d * d) ≤ 2 := by
  obtain ⟨hcc, hcc0, hcc'⟩ := hc.sq
  obtain ⟨hdd, hdd0, hdd'⟩ := hd.sq
  have hcc1 := (le_abs_self _).trans hcc.abs_le
  have hdd1 := (le_abs_self _).trans hdd.abs_le
  have hround : RoundsTo (toReal (c * c) + toReal (d * d)) (c * c + d * d) := by
    refine (rounds_add hcc.isFinite hdd.isFinite).roundsTo ?_
    rw [abs_of_nonneg (add_nonneg hcc0 hdd0)]
    linarith [two_lt_safeBound]
  refine ⟨hround.isFinite, hround.isNearest.ge_of_ge isNumber_quarter ?_,
    hround.isNearest.le_of_le isNumber_two (by linarith)⟩
  rcases h with h | h
  · linarith [hcc' h]
  · linarith [hdd' h]

/-- The smallest size that a part of a divisor is asked to have. -/
noncomputable def leastDivisor : ℝ := ((2 : ℕ) : ℝ) ^ (-1000 : ℤ)

theorem leastDivisor_eq : leastDivisor = 2 ^ (-1000 : ℤ) := by rw [leastDivisor, Nat.cast_ofNat]

theorem leastDivisor_pos : 0 < leastDivisor := zpow_pos two_pos _

theorem four_mul_two_zpow_minExponent_le :
    4 * 2 ^ Float.Model.Format.binary64.minExponent ≤ leastDivisor := by
  have hfour : (4 : ℝ) = 2 ^ (2 : ℤ) := by norm_num
  rw [leastDivisor_eq, hfour, ← zpow_add₀ two_ne_zero]
  exact zpow_le_zpow_right₀ one_le_two (by decide)

end Binary

namespace Complex

variable {z w : Complex Float} {a b g : ℝ}

/-- The taxicab length, beside the larger part `m`. -/
theorem taxicab_bounds (hw : w.isFinite = true) {m : ℝ} (hre : |toReal w.re| ≤ m)
    (him : |toReal w.im| ≤ m) (hm : m = |toReal w.re| ∨ m = |toReal w.im|)
    (hsize : 2 * m < safeBound) :
    w.taxicab.isFinite = true ∧ m ≤ toReal w.taxicab ∧ toReal w.taxicab ≤ 2 * m := by
  obtain ⟨hre', him'⟩ := isFinite_iff.1 hw
  have hround := taxicab_roundsTo hw (by linarith)
  have hnumber : IsNumber .binary64 m := by
    rcases hm with rfl | rfl
    exacts [(isNumber_toReal hre').abs, (isNumber_toReal him').abs]
  refine ⟨hround.isFinite, hround.isNearest.ge_of_ge hnumber ?_,
    hround.isNearest.le_of_le hnumber.mul_two (by linarith)⟩
  have := abs_nonneg (toReal w.re)
  have := abs_nonneg (toReal w.im)
  rcases hm with hm | hm <;> linarith

/-- A divisor is scaled so that its parts are at most one, and what is divided
by in the end is an eighth of one of its parts at least. -/
theorem IsWithin.scaled_divisor (hw : w.IsWithin b) (hb : 4 * b < safeBound)
    (hg : g ≤ |toReal w.re| ∨ g ≤ |toReal w.im|) (hg0 : leastDivisor ≤ g) :
    let s := w.taxicab
    let c := w.re / s
    let d := w.im / s
    (s == 0) = false ∧ Bounded c 1 ∧ Bounded d 1 ∧ ((c * c + d * d) * s).isFinite = true ∧
      g / 8 ≤ toReal ((c * c + d * d) * s) := by
  intro s c d
  obtain ⟨m, hm, hre, him, hgm, hmb⟩ : ∃ m, (m = |toReal w.re| ∨ m = |toReal w.im|) ∧
      |toReal w.re| ≤ m ∧ |toReal w.im| ≤ m ∧ g ≤ m ∧ m ≤ b := by
    rcases le_total |toReal w.re| |toReal w.im| with hle | hle
    · exact ⟨_, .inr rfl, hle, le_rfl, hg.elim hle.trans' id, hw.im.abs_le⟩
    · exact ⟨_, .inl rfl, le_rfl, hle, hg.elim id hle.trans', hw.re.abs_le⟩
  have hgpos : 0 < g := leastDivisor_pos.trans_le hg0
  have hb0 := hw.re.nonneg
  obtain ⟨hs, hms, hsm⟩ := taxicab_bounds hw.isFinite hre him hm (by linarith)
  have hspos : 0 < toReal s := hgpos.trans_le (hgm.trans hms)
  have hc : Bounded c 1 := hw.re.div_of_le hs hspos (hre.trans hms)
  have hd : Bounded d 1 := hw.im.div_of_le hs hspos (him.trans hms)
  obtain ⟨hq, hq4, hq2⟩ : (c * c + d * d).isFinite = true ∧ 1 / 4 ≤ toReal (c * c + d * d) ∧
      toReal (c * c + d * d) ≤ 2 := by
    refine sum_sq_bounds hc hd (hm.imp (fun hm => ?_) fun hm => ?_)
    · exact half_le_abs_div hw.re.isFinite hs hspos (hm ▸ hsm) (hm ▸ hms)
    · exact half_le_abs_div hw.im.isFinite hs hspos (hm ▸ hsm) (hm ▸ hms)
  set q := c * c + d * d
  have hlow : g / 4 ≤ toReal q * toReal s := by
    calc g / 4 = 1 / 4 * g := by ring
      _ ≤ toReal q * toReal s := mul_le_mul hq4 (hgm.trans hms) hgpos.le (by linarith)
  have hround : RoundsTo (toReal q * toReal s) (q * s) := by
    refine (rounds_mul hq hs).roundsTo ?_
    rw [abs_of_nonneg (by linarith)]
    calc toReal q * toReal s ≤ 2 * (2 * b) := mul_le_mul hq2 (by linarith) hspos.le zero_le_two
      _ < safeBound := by linarith
  have hzero : (s == 0) = false := by
    rw [Bool.eq_false_iff, ne_eq, float_beq_iff hs isFinite_zero, toReal_zero]
    exact hspos.ne'
  refine ⟨hzero, hc, hd, hround.isFinite, ?_⟩
  have := hround.isNearest.half_lt (by linarith [four_mul_two_zpow_minExponent_le])
  linarith

/-- A quotient, if one of the parts of the divisor is not too small. -/
theorem IsWithin.div (hz : z.IsWithin a) (hw : w.IsWithin b) (ha : 2 * a < safeBound)
    (hb : 4 * b < safeBound) (hg : g ≤ |toReal w.re| ∨ g ≤ |toReal w.im|) (hg0 : leastDivisor ≤ g)
    (hsize : 24 * (a / g) < safeBound) : (z / w).IsWithin (48 * (a / g)) := by
  obtain ⟨hzero, hc, hd, hfinite, hle⟩ := hw.scaled_divisor hb hg hg0
  set s := w.taxicab
  set c := w.re / s
  set d := w.im / s
  have hquotient : z / w = ⟨(z.re * c + z.im * d) / ((c * c + d * d) * s),
      (z.im * c - z.re * d) / ((c * c + d * d) * s)⟩ :=
    if_neg (by rw [hzero]; exact Bool.false_ne_true)
  have hgpos : 0 < g := leastDivisor_pos.trans_le hg0
  have ha0 := hz.re.nonneg
  have hratio : (a + 2 * a) / (g / 8) = 24 * (a / g) := by
    field_simp
    ring
  have hbound : 2 * ((a + 2 * a) / (g / 8)) = 48 * (a / g) := by
    rw [hratio]
    ring
  have hsum : a + a < safeBound := by linarith
  have part {x y : Float} (hx : Bounded x a) (hy : Bounded y 1) : Bounded (x * y) a :=
    hx.mul_of_le_one hy (by linarith)
  rw [hquotient]
  constructor
  · exact hbound ▸ ((part hz.re hc).add (part hz.im hd) hsum).div hfinite (by linarith) hle
      (hratio ▸ hsize)
  · exact hbound ▸ ((part hz.im hc).sub (part hz.re hd) hsum).div hfinite (by linarith) hle
      (hratio ▸ hsize)

end Complex

end DenseNumeric
