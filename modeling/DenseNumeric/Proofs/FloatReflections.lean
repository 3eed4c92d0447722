import Mathlib
import DenseNumeric.Proofs.ScaledRows

/-!
# Reflections in double precision

How long the vector of a reflection is, when it is computed from a row that is
scaled. The squared length should be two. It is, up to rounding, if the
direction of the last entry is known: where both parts of that entry are below
the normal range, the computed direction can have a squared length of up to
two, and the vector one of up to three. For a real number the direction is
exact.
-/

namespace DenseNumeric

open Binary

namespace Reflection

/-! ## The numbers, bounded -/

/-- The root of a number that is a little less. -/
theorem mul_sqrt_le {q s e : ℝ} (hs : 0 ≤ s) (he : 0 ≤ e) (he1 : e ≤ 1) (h : (1 - e) * s ≤ q) :
    (1 - e) * √s ≤ √q := by
  refine Real.le_sqrt_of_sq_le ?_
  rw [mul_pow, Real.sq_sqrt hs]
  nlinarith [mul_nonneg he hs]

/-- The root of a number that is a little more. -/
theorem sqrt_le_mul {q s e : ℝ} (hs : 0 ≤ s) (he : 0 ≤ e) (h : q ≤ (1 + e) * s) :
    √q ≤ (1 + e) * √s := by
  refine Real.sqrt_le_iff.2 ⟨by positivity, ?_⟩
  rw [mul_pow, Real.sq_sqrt hs]
  nlinarith [mul_nonneg he hs]

/-- The square of what the vector is divided by. -/
noncomputable def exactDivisor (order : Nat) (row : Nat → Complex Float) : ℝ :=
  exactSquare order row
    + √(exactSquare order row) * ‖(scaled order row (order - 1)).value‖

namespace IsScalable

variable {order : Nat} {row : Nat → Complex Float}

/-- The exact length of the scaled row. -/
theorem sqrt_exactSquare_bounds (h : IsScalable order row) :
    1 / 2 ^ 14 ≤ √(exactSquare order row) ∧ √(exactSquare order row) ≤ 2 ^ 13 := by
  obtain ⟨hlow, hhigh⟩ := h.exactSquare_bounds
  constructor
  · refine Real.le_sqrt_of_sq_le (le_trans ?_ hlow)
    norm_num
  · refine Real.sqrt_le_iff.2 ⟨by norm_num, hhigh.trans ?_⟩
    norm_num

theorem last_lt (h : IsScalable order row) : order - 1 < order := Nat.sub_lt h.pos Nat.one_pos

theorem norm_last_le (h : IsScalable order row) :
    ‖(scaled order row (order - 1)).value‖ ≤ √(exactSquare order row) :=
  norm_le_normUpTo (f := fun k => (scaled order row k).value) h.last_lt

theorem length_near (h : IsScalable order row) :
    Near (Arith.sqrt (square order row)) √(exactSquare order row)
      (√(exactSquare order row) / 2 ^ 28) := by
  have hsquare := h.square_near
  obtain ⟨hS, -⟩ := h.exactSquare_bounds
  obtain ⟨hG, hG'⟩ := h.sqrt_exactSquare_bounds
  have hlow := mul_sqrt_le (q := toReal (square order row)) (s := exactSquare order row)
    (e := 1 / 2 ^ 29) (by linarith) (by norm_num) (by norm_num) (by linarith [hsquare.sub_le])
  have hhigh := sqrt_le_mul (q := toReal (square order row)) (s := exactSquare order row)
    (e := 1 / 2 ^ 29) (by linarith) (by norm_num) (by linarith [hsquare.le_add])
  have hcap := two_pow_lt_safeBound (k := 20) (by decide)
  have hround := (rounds_sqrt hsquare.isFinite (by linarith [hsquare.sub_le])).near (by
    rw [abs_of_nonneg (Real.sqrt_nonneg _)]
    linarith)
  refine ⟨hround.isFinite, (abs_sub_le _ √(toReal (square order row)) _).trans ?_⟩
  have herror := hround.error_le
  rw [abs_of_nonneg (Real.sqrt_nonneg _), roundoff_eq] at herror
  have hroots : |√(toReal (square order row)) - √(exactSquare order row)|
      ≤ √(exactSquare order row) / 2 ^ 29 := abs_le.2 ⟨by linarith, by linarith⟩
  linarith [underflow_le]

theorem lastLength_near (h : IsScalable order row) :
    0 ≤ toReal (lastLength order row) ∧
      Near (lastLength order row) ‖(scaled order row (order - 1)).value‖
        (roundoff * ‖(scaled order row (order - 1)).value‖ + underflow) := by
  have hcap := two_pow_lt_safeBound (k := 20) (by decide)
  have hround := Complex.magnitude_roundsTo (h.scaled_near h.last_lt).isFinite
    (lt_of_le_of_lt h.norm_last_le (by linarith [h.sqrt_exactSquare_bounds.2]))
  have hnear := hround.near
  rw [abs_of_nonneg (norm_nonneg _)] at hnear
  exact ⟨hround.isNearest.nonneg (norm_nonneg _), hnear⟩

/-- The rounded product of the two lengths. -/
theorem product_bounds (h : IsScalable order row) :
    (Arith.sqrt (square order row) * lastLength order row).isFinite = true ∧
      (1 - 1 / 2 ^ 26) * (√(exactSquare order row) * ‖(scaled order row (order - 1)).value‖)
        - 1 / 2 ^ 150 ≤ toReal (Arith.sqrt (square order row) * lastLength order row) ∧
      |toReal (Arith.sqrt (square order row) * lastLength order row)| ≤ 2 ^ 31 := by
  obtain ⟨hG, hG'⟩ := h.sqrt_exactSquare_bounds
  obtain ⟨hlast0, hlast⟩ := h.lastLength_near
  have hlength := h.length_near
  have hle := h.norm_last_le
  have hη := underflow_le
  set G := √(exactSquare order row)
  set l := ‖(scaled order row (order - 1)).value‖
  have hl0 : 0 ≤ l := norm_nonneg _
  have hGl : 0 ≤ G * l := by positivity
  have hGη : G * underflow ≤ 2 ^ 13 * (1 / 2 ^ 200) :=
    mul_le_mul hG' hη underflow_pos.le (by norm_num)
  have hg := hlength.sub_le
  have hg' := hlength.le_add
  have hlow := hlast.sub_le
  have hhigh := hlast.le_add
  rw [roundoff_eq] at hlow hhigh
  have hproduct : (1 - 1 / 2 ^ 27) * (G * l) - 1 / 2 ^ 180
      ≤ toReal (Arith.sqrt (square order row)) * toReal (lastLength order row) := by
    have hfirst := mul_le_mul_of_nonneg_right hg hlast0
    have hsecond := mul_le_mul_of_nonneg_left hlow (by linarith : 0 ≤ G - G / 2 ^ 28)
    linarith
  have hproduct' : toReal (Arith.sqrt (square order row)) * toReal (lastLength order row)
      ≤ 2 ^ 15 * 2 ^ 15 :=
    mul_le_mul (by linarith) (by linarith) hlast0 (by norm_num)
  have hproduct0 : 0 ≤ toReal (Arith.sqrt (square order row)) * toReal (lastLength order row) :=
    mul_nonneg (by linarith) hlast0
  have hcap := two_pow_lt_safeBound (k := 100) (by decide)
  have hmul := (rounds_mul hlength.isFinite hlast.isFinite).near (by
    rw [abs_of_nonneg hproduct0]
    linarith)
  have herror := hmul.sub_le
  have hsize := hmul.abs_le
  rw [abs_of_nonneg hproduct0, roundoff_eq] at herror hsize
  exact ⟨hmul.isFinite, by linarith, by linarith⟩

theorem exactDivisor_bounds (h : IsScalable order row) :
    exactSquare order row ≤ exactDivisor order row ∧ 1 / 2 ^ 14 ≤ √(exactDivisor order row) ∧
      √(exactDivisor order row) ≤ 2 ^ 13 := by
  obtain ⟨hS, hS'⟩ := h.exactSquare_bounds
  have hproduct : 0 ≤ √(exactSquare order row) * ‖(scaled order row (order - 1)).value‖ := by
    positivity
  have hlow : exactSquare order row ≤ exactDivisor order row := le_add_of_nonneg_right hproduct
  have hhigh : exactDivisor order row ≤ 2 * exactSquare order row := by
    have hmul := mul_le_mul_of_nonneg_left h.norm_last_le (Real.sqrt_nonneg (exactSquare order row))
    rw [Real.mul_self_sqrt (by linarith)] at hmul
    rw [exactDivisor]
    linarith
  refine ⟨hlow, Real.le_sqrt_of_sq_le ?_, Real.sqrt_le_iff.2 ⟨by norm_num, ?_⟩⟩
  · linarith
  · linarith

/-- What is divided by is not much less than it should be. -/
theorem divisor_bounds (h : IsScalable order row) {x : Float}
    (hx : x = Arith.sqrt
      (square order row + Arith.sqrt (square order row) * lastLength order row)) :
    x.isFinite = true ∧ (1 - 1 / 2 ^ 24) * √(exactDivisor order row) ≤ toReal x := by
  obtain ⟨hS, hS'⟩ := h.exactSquare_bounds
  obtain ⟨hfinite, hlow, hsize⟩ := h.product_bounds
  have hsquare := h.square_near
  have hη := underflow_le
  have hcap := two_pow_lt_safeBound (k := 100) (by decide)
  obtain ⟨hD, hroot14, -⟩ := h.exactDivisor_bounds
  have hproduct : 0 ≤ √(exactSquare order row) * ‖(scaled order row (order - 1)).value‖ := by
    positivity
  have hsum := abs_add_le (toReal (square order row))
    (toReal (Arith.sqrt (square order row) * lastLength order row))
  have hsquarele := hsquare.abs_le
  rw [abs_of_nonneg (by linarith : 0 ≤ exactSquare order row)] at hsquarele
  have hadd := (rounds_add hsquare.isFinite hfinite).near (by linarith)
  have hlowsum := hadd.sub_le
  have hhighsum := hadd.le_add
  have hsquarelow := hsquare.sub_le
  rw [abs_of_nonneg (by linarith), roundoff_eq] at hlowsum hhighsum
  have hdenominator : (1 - 1 / 2 ^ 25) * exactDivisor order row
      ≤ toReal (square order row + Arith.sqrt (square order row) * lastLength order row) := by
    rw [exactDivisor]
    linarith
  have hroot := mul_sqrt_le (by linarith) (by norm_num) (by norm_num) hdenominator
  have hupper : √(toReal (square order row
      + Arith.sqrt (square order row) * lastLength order row)) ≤ 2 ^ 20 := by
    refine Real.sqrt_le_iff.2 ⟨by norm_num, ?_⟩
    have := le_abs_self (toReal (square order row))
    have := le_abs_self (toReal (Arith.sqrt (square order row) * lastLength order row))
    linarith
  have hround := (rounds_sqrt hadd.isFinite (by linarith)).near (by
    rw [abs_of_nonneg (Real.sqrt_nonneg _)]
    linarith)
  have hlowroot := hround.sub_le
  rw [abs_of_nonneg (Real.sqrt_nonneg _), roundoff_eq] at hlowroot
  rw [hx]
  exact ⟨hround.isFinite, by linarith⟩

theorem shrink_bounds (h : IsScalable order row) :
    (shrink order row).isFinite = true ∧ 0 ≤ toReal (shrink order row) ∧
      toReal (shrink order row) * √(exactDivisor order row) ≤ 1 + 1 / 2 ^ 23 := by
  obtain ⟨hfinite, hlow⟩ := h.divisor_bounds rfl
  obtain ⟨-, hD, hD'⟩ := h.exactDivisor_bounds
  set x := Arith.sqrt (square order row + Arith.sqrt (square order row) * lastLength order row)
  have hx : 1 / 2 ^ 15 ≤ toReal x := by linarith
  have hpos : 0 < toReal x := by linarith
  have hquotient : 1 / toReal x ≤ 2 ^ 15 := by
    rw [div_le_iff₀ hpos]
    linarith
  have hcap := two_pow_lt_safeBound (k := 20) (by decide)
  have hdiv := rounds_div isFinite_one hfinite hpos.ne'
  rw [toReal_one] at hdiv
  have hround := hdiv.roundsTo (by
    rw [abs_of_pos (by positivity)]
    linarith)
  have hhigh := hround.near.le_add
  rw [abs_of_pos (by positivity), roundoff_eq] at hhigh
  refine ⟨hround.isFinite, hround.isNearest.nonneg (by positivity), ?_⟩
  have hratio : 1 / toReal x * √(exactDivisor order row) ≤ 1 + 1 / 2 ^ 23 - 1 / 2 ^ 40 := by
    rw [one_div_mul_eq_div, div_le_iff₀ hpos]
    linarith
  have hη : underflow * √(exactDivisor order row) ≤ 1 / 2 ^ 200 * 2 ^ 13 :=
    mul_le_mul underflow_le hD' (Real.sqrt_nonneg _) (by norm_num)
  have := mul_le_mul_of_nonneg_right hhigh (Real.sqrt_nonneg (exactDivisor order row))
  rw [shrink]
  linarith

/-- The direction of the last entry, as it is computed. -/
theorem phase_isWithin (h : IsScalable order row) (hlast : (lastLength order row == 0) = false) :
    ((scaled order row (order - 1)).divReal (lastLength order row)).IsWithin 1 := by
  obtain ⟨hnonneg, hnear⟩ := h.lastLength_near
  refine (Complex.isWithin_magnitude hnear.isFinite).divReal hnear.isFinite ?_ le_rfl
  exact lt_of_le_of_ne hnonneg (toReal_ne_zero_of_beq hnear.isFinite hlast).symm

/-- The last coordinate is not longer than the last entry and the length of the
row in its direction. -/
theorem norm_head_le (h : IsScalable order row) {p : ℝ} (hp : 1 ≤ p)
    (hphase : (lastLength order row == 0) = false →
      ‖((scaled order row (order - 1)).divReal (lastLength order row)).value‖ ^ 2 ≤ p) :
    (head order row).isFinite = true ∧
      ‖(head order row).value‖ ≤ (1 + 1 / 2 ^ 26)
        * (‖(scaled order row (order - 1)).value‖ + √p * √(exactSquare order row)) := by
  obtain ⟨hG, hG'⟩ := h.sqrt_exactSquare_bounds
  have hlength := h.length_near
  have hle := h.norm_last_le
  have hη := underflow_le
  have hg := hlength.le_add
  have hg0 : 0 ≤ toReal (Arith.sqrt (square order row)) := by linarith [hlength.sub_le]
  have hroot : 1 ≤ √p := Real.one_le_sqrt.2 hp
  have hpG := mul_le_mul_of_nonneg_right hroot (Real.sqrt_nonneg (exactSquare order row))
  have hl0 := norm_nonneg (scaled order row (order - 1)).value
  rw [head]
  cases hzero : lastLength order row == 0 with
  | true =>
      rw [if_neg (by decide)]
      refine ⟨Complex.isFinite_iff.2 ⟨hlength.isFinite, isFinite_zero⟩, ?_⟩
      rw [Complex.value_real, Complex.norm_real, Real.norm_of_nonneg hg0]
      linarith
  | false =>
      rw [if_pos (by decide)]
      have hwithin := h.phase_isWithin hzero
      set φ := (scaled order row (order - 1)).divReal (lastLength order row)
      set g := Arith.sqrt (square order row)
      have hφ : ‖φ.value‖ ≤ √p := Real.le_sqrt_of_sq_le (hphase hzero)
      have hφ2 : ‖φ.value‖ ≤ 2 := by linarith [Complex.norm_value_le hwithin]
      have hcap := two_pow_lt_safeBound (k := 20) (by decide)
      have hproduct : ‖φ.value‖ * toReal g ≤ √p * (√(exactSquare order row) * (1 + 1 / 2 ^ 28)) :=
        mul_le_mul hφ (by linarith) hg0 (Real.sqrt_nonneg p)
      have hsmall : ‖φ.value‖ * toReal g ≤ 2 * 2 ^ 14 :=
        mul_le_mul hφ2 (by linarith) hg0 (by norm_num)
      have hscale := Complex.scale_near hwithin.isFinite hlength.isFinite (by
        rw [abs_of_nonneg hg0]
        linarith)
      have hnorm := hscale.norm_le
      rw [norm_mul, Complex.norm_real, Real.norm_of_nonneg hg0, abs_of_nonneg hg0,
        roundoff_eq] at hnorm
      have hsum := norm_add_le (scaled order row (order - 1)).value (φ.scale g).value
      have hadd := Complex.add_near (h.scaled_near h.last_lt).isFinite hscale.isFinite (by linarith)
      refine ⟨hadd.isFinite, ?_⟩
      have hhead := hadd.norm_le
      rw [roundoff_eq] at hhead
      linarith

/-! ## The lengthened vector -/

theorem sum_range_of_last {order : ℕ} (hpos : 0 < order) {f g : ℕ → ℝ}
    (h : ∀ k, k + 1 < order → f k = g k) :
    ∑ k ∈ Finset.range order, f k
      = ∑ k ∈ Finset.range order, g k - g (order - 1) + f (order - 1) := by
  obtain ⟨m, rfl⟩ : ∃ m, order = m + 1 := ⟨order - 1, by omega⟩
  rw [Finset.sum_range_succ, Finset.sum_range_succ, Nat.add_sub_cancel,
    Finset.sum_congr rfl fun k hk => h k (Nat.succ_lt_succ (Finset.mem_range.1 hk))]
  ring

section Lengthened

variable {p : ℝ} (h : IsScalable order row) (hp : 1 ≤ p)
  (hphase : (lastLength order row == 0) = false →
    ‖((scaled order row (order - 1)).divReal (lastLength order row)).value‖ ^ 2 ≤ p)

include h hp hphase

theorem lengthened_isFinite {k : Nat} (hk : k < order) :
    (lengthened order row k).isFinite = true := by
  rw [lengthened]
  split_ifs
  · exact (h.scaled_near hk).isFinite
  · exact (h.norm_head_le hp hphase).1

/-- Only the last entry is another one than in the scaled row. -/
theorem sq_length_lengthened_le :
    normUpTo order (fun k => (lengthened order row k).value) ^ 2
      ≤ (1 + p) * ((1 + 1 / 2 ^ 24) * exactDivisor order row) := by
  have hS0 : 0 ≤ exactSquare order row := by linarith [h.exactSquare_bounds.1]
  have hlast : lengthened order row (order - 1) = head order row := by
    have := h.pos
    exact if_neg (by omega)
  have hsum := sum_range_of_last h.pos (f := fun k => ‖(lengthened order row k).value‖ ^ 2)
    (g := fun k => ‖(scaled order row k).value‖ ^ 2) fun k hk => by rw [lengthened, if_pos hk]
  rw [hlast] at hsum
  rw [sq_normUpTo, hsum, ← exactSquare, exactDivisor]
  have hhead := pow_le_pow_left₀ (norm_nonneg _) (h.norm_head_le hp hphase).2 2
  rw [mul_pow] at hhead
  set l := ‖(scaled order row (order - 1)).value‖
  set G := √(exactSquare order row) with hG
  have hG2 : G ^ 2 = exactSquare order row := Real.sq_sqrt hS0
  have hp2 : √p ^ 2 = p := Real.sq_sqrt (by linarith)
  have hl : 0 ≤ l := norm_nonneg _
  have hl2 : l ^ 2 ≤ G ^ 2 := pow_le_pow_left₀ hl h.norm_last_le 2
  have hroots : 2 * √p * (G * l) ≤ (1 + p) * (G * l) := by
    refine mul_le_mul_of_nonneg_right ?_ (by positivity)
    linarith [sq_nonneg (√p - 1)]
  have hexpand : (l + √p * G) ^ 2 = l ^ 2 + 2 * √p * (G * l) + p * exactSquare order row := by
    rw [← hG2, add_sq, mul_pow, hp2]
    ring
  have hsmall : ((1 : ℝ) + 1 / 2 ^ 26) ^ 2 ≤ 1 + 1 / 2 ^ 24 := by norm_num
  have hrounded := hhead.trans (mul_le_mul_of_nonneg_right hsmall (sq_nonneg (l + √p * G)))
  rw [hexpand] at hrounded
  linarith

/-- It is made shorter by what it is too long. -/
theorem shrink_mul_length_le :
    toReal (shrink order row) * normUpTo order (fun k => (lengthened order row k).value)
      ≤ (1 + 1 / 2 ^ 23) * ((1 + 1 / 2 ^ 24) * √(1 + p)) := by
  obtain ⟨-, hshrink0, hshrink⟩ := h.shrink_bounds
  have hD0 : 0 ≤ exactDivisor order row := by
    linarith [h.exactDivisor_bounds.1, h.exactSquare_bounds.1]
  have hlength : normUpTo order (fun k => (lengthened order row k).value)
      ≤ √(1 + p) * ((1 + 1 / 2 ^ 24) * √(exactDivisor order row)) := by
    refine (Real.le_sqrt_of_sq_le (h.sq_length_lengthened_le hp hphase)).trans ?_
    rw [Real.sqrt_mul (by linarith)]
    refine mul_le_mul_of_nonneg_left ?_ (Real.sqrt_nonneg _)
    exact sqrt_le_mul hD0 (by norm_num) le_rfl
  have hfirst := mul_le_mul_of_nonneg_left hlength hshrink0
  have hsecond := mul_le_mul_of_nonneg_right hshrink
    (by positivity : 0 ≤ (1 + 1 / 2 ^ 24) * √(1 + p))
  linarith

end Lengthened

end IsScalable

/-! ## Its length -/

/-- A vector in double precision with a squared length of `1 + p`, up to
rounding. Its reflection lengthens nothing by much more than a factor of `p`. -/
structure IsShort (v : Reflection Float) (p : ℝ) : Prop where
  pos : 0 < v.order
  order_le : v.order ≤ orderLimit
  isFinite : ∀ k < v.order, (v.coordinate k).isFinite = true
  length_le : normUpTo v.order (fun k => (v.coordinate k).value) ^ 2 ≤ (1 + p) * (1 + 1 / 2 ^ 20)

/-- A row that is scaled has a vector of the right length, if the direction of
its last entry is a number of squared length at most `p`. -/
theorem isShort_of_isScalable {order : Nat} {row : Nat → Complex Float} {v : Reflection Float}
    {x : Complex Float} (h : IsScalable order row) (hv : ofRow? order row = some (v, x)) {p : ℝ}
    (hp : 1 ≤ p) (hp2 : p ≤ 2) (hphase : (lastLength order row == 0) = false →
      ‖((scaled order row (order - 1)).divReal (lastLength order row)).value‖ ^ 2 ≤ p) :
    v.IsShort p := by
  obtain rfl := order_of_ofRow? hv
  obtain ⟨hshrink, hshrink0, -⟩ := h.shrink_bounds
  have hproduct := h.shrink_mul_length_le hp hphase
  set w : Nat → Complex Float := lengthened v.order row
  have hroot : √(1 + p) ≤ 2 := Real.sqrt_le_iff.2 ⟨by norm_num, by linarith⟩
  have hroot1 : 1 ≤ √(1 + p) := Real.one_le_sqrt.2 (by linarith)
  have hstep : ∀ k < v.order, (v.coordinate k).Near ((w k).value * toReal (shrink v.order row))
      (2 * roundoff * (‖(w k).value‖ * toReal (shrink v.order row)) + 2 * underflow) := by
    intro k hk
    have hnear := Complex.scale_near (h.lengthened_isFinite hp hphase hk) hshrink
    rw [abs_of_nonneg hshrink0] at hnear
    rw [coordinate_of_ofRow? h.pos hv hk]
    refine hnear ?_
    have hle := mul_le_mul_of_nonneg_left
      (norm_le_normUpTo (f := fun k => (w k).value) hk) hshrink0
    have hcap := two_pow_lt_safeBound (k := 20) (by decide)
    linarith
  refine ⟨h.pos, h.order_le, fun k hk => (hstep k hk).isFinite, ?_⟩
  have hcoordinate : ∀ k < v.order, ‖(v.coordinate k).value‖
      ≤ (1 + 2 * roundoff) * toReal (shrink v.order row) * ‖(w k).value‖ + 0 * ‖(w k).value‖
        + 2 * underflow := by
    intro k hk
    have := (hstep k hk).norm_le
    rw [norm_mul, Complex.norm_real, Real.norm_of_nonneg hshrink0] at this
    linarith
  have hvlength := normUpTo_le_of_le
    (mul_nonneg (by linarith [roundoff_pos]) hshrink0) le_rfl (by linarith [underflow_pos])
    hcoordinate
  have hη := mul_underflow_le h.order_le
  have htotal : normUpTo v.order (fun k => (v.coordinate k).value)
      ≤ (1 + 1 / 2 ^ 22) * √(1 + p) := by
    rw [roundoff_eq] at hvlength
    linarith
  calc normUpTo v.order (fun k => (v.coordinate k).value) ^ 2
      ≤ ((1 + 1 / 2 ^ 22) * √(1 + p)) ^ 2 := pow_le_pow_left₀ (normUpTo_nonneg _ _) htotal 2
    _ = (1 + p) * (1 + 1 / 2 ^ 22) ^ 2 := by rw [mul_pow, Real.sq_sqrt (by linarith), mul_comm]
    _ ≤ (1 + p) * (1 + 1 / 2 ^ 20) :=
      mul_le_mul_of_nonneg_left (by norm_num) (by linarith)

theorem sq_norm_value (z : Complex Float) :
    ‖z.value‖ ^ 2 = toReal z.re ^ 2 + toReal z.im ^ 2 := by
  rw [Complex.norm_value, Real.sq_sqrt (by positivity)]

/-- Whatever the last entry is. -/
theorem isShort_two {order : Nat} {row : Nat → Complex Float} {v : Reflection Float}
    {x : Complex Float} (h : IsScalable order row) (hv : ofRow? order row = some (v, x)) :
    v.IsShort 2 := by
  refine isShort_of_isScalable h hv one_le_two le_rfl fun hlast => ?_
  have hwithin := h.phase_isWithin hlast
  rw [sq_norm_value]
  linarith [(sq_le_one_iff_abs_le_one _).2 hwithin.re.abs_le,
    (sq_le_one_iff_abs_le_one _).2 hwithin.im.abs_le]

/-- A real last entry has an exact direction. -/
theorem isShort_one {order : Nat} {row : Nat → Complex Float} {v : Reflection Float}
    {x : Complex Float} (h : IsScalable order row) (hv : ofRow? order row = some (v, x))
    (hreal : toReal (row (order - 1)).im = 0) : v.IsShort 1 := by
  refine isShort_of_isScalable h hv le_rfl one_le_two fun hlast => ?_
  have hwithin := h.phase_isWithin hlast
  have hrow := (h.entries.2.1 _ h.last_lt).im.isFinite
  have hscaled : toReal (scaled order row (order - 1)).im = 0 := by
    have hround := (rounds_mul hrow h.unscale_isFinite).of_isFinite
      (Complex.isFinite_iff.1 (h.scaled_near h.last_lt).isFinite).2
    rw [hreal, zero_mul] at hround
    exact hround.of_isNumber (isNumber_zero _)
  have hphase : toReal ((scaled order row (order - 1)).divReal (lastLength order row)).im = 0 := by
    have hlength := h.lastLength_near.2.isFinite
    have hround := (rounds_div (Complex.isFinite_iff.1 (h.scaled_near h.last_lt).isFinite).2 hlength
      (toReal_ne_zero_of_beq hlength hlast)).of_isFinite hwithin.im.isFinite
    rw [hscaled, zero_div] at hround
    exact hround.of_isNumber (isNumber_zero _)
  rw [sq_norm_value, hphase]
  linarith [(sq_le_one_iff_abs_le_one _).2 hwithin.re.abs_le]

end Reflection

end DenseNumeric
