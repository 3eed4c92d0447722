import Mathlib
import DenseNumeric.Proofs.FloatBounds
import DenseNumeric.Proofs.ReflectedVectors

/-!
# Scaled rows

The row that a reflection is made from is first divided by the sum of the
taxicab lengths of its entries. When that sum is finite, no entry is large
afterwards and the squares of all of them together are not small: nothing that
is computed from them overflows, and what underflows is not missed.

The numbers that a reflection consists of have names here, so that each can be
bounded by itself.
-/

namespace DenseNumeric

open Binary
open Float.Model (UnpackedFloat)
open Float.Model.UnpackedFloat (pack unpack)

/-! ## Sums of lengths that are finite -/

namespace Binary

theorem isFinite_unpack_pack_add {u v : UnpackedFloat}
    (h : (unpack .binary64 (pack .binary64 (UnpackedFloat.add .binary64 u v))).isFinite = true) :
    u.isFinite = true ∧ v.isFinite = true := by
  rcases u with (_ | _) | _ | _ | _ <;> rcases v with (_ | _) | _ | _ | _ <;> first
    | exact ⟨rfl, rfl⟩
    | simp [UnpackedFloat.add, pack, UnpackedFloat.isFinite] at h

theorem isFinite_of_add {x y : Float} (h : (x + y).isFinite = true) :
    x.isFinite = true ∧ y.isFinite = true :=
  isFinite_unpack_pack_add h

theorem isFinite_unpack_pack_abs {u : UnpackedFloat}
    (h : (unpack .binary64 (pack .binary64 u.abs)).isFinite = true) : u.isFinite = true := by
  rcases u with (_ | _) | _ | _ | _ <;> first
    | exact rfl
    | simp [UnpackedFloat.abs, pack, UnpackedFloat.isFinite] at h

theorem isFinite_of_abs {x : Float} (h : (Arith.abs x).isFinite = true) : x.isFinite = true :=
  isFinite_unpack_pack_abs h

theorem isFinite_of_foldl_add {α : Type} {xs : List α} {f : α → Float} {x : Float}
    (h : (xs.foldl (fun acc a => acc + f a) x).isFinite = true) : x.isFinite = true := by
  induction xs generalizing x with
  | nil => exact h
  | cons a xs ih => exact (isFinite_of_add (ih h)).1

/-- A sum from the left of numbers that are not negative, from one that is not negative. -/
theorem foldl_add_bounds {α : Type} {xs : List α} {f : α → Float} {x : Float}
    (hf : ∀ a ∈ xs, (f a).isFinite = true → 0 ≤ toReal (f a))
    (h : (xs.foldl (fun acc a => acc + f a) x).isFinite = true) (hx0 : 0 ≤ toReal x) :
    (∀ a ∈ xs, (f a).isFinite = true) ∧
      toReal x ≤ toReal (xs.foldl (fun acc a => acc + f a) x) ∧
      (∀ a ∈ xs, toReal (f a) ≤ toReal (xs.foldl (fun acc a => acc + f a) x)) ∧
      toReal (xs.foldl (fun acc a => acc + f a) x)
        ≤ toReal x + 2 * (xs.map fun a => toReal (f a)).sum := by
  induction xs generalizing x with
  | nil => simp
  | cons a xs ih =>
      have hpartial : (x + f a).isFinite = true := isFinite_of_foldl_add h
      obtain ⟨hx, hfa⟩ := isFinite_of_add hpartial
      have hfa0 := hf a List.mem_cons_self hfa
      have hround := (rounds_add hx hfa).of_isFinite hpartial
      have hfirst : toReal x ≤ toReal (x + f a) :=
        hround.isNearest.ge_of_ge (isNumber_toReal hx) (by linarith)
      have hsecond : toReal (f a) ≤ toReal (x + f a) :=
        hround.isNearest.ge_of_ge (isNumber_toReal hfa) (by linarith)
      have hupper := hround.isNearest.abs_sum_le (isNumber_toReal hx)
      rw [abs_of_nonneg hx0, abs_of_nonneg hfa0] at hupper
      obtain ⟨hfinite, hstart, hterms, hsum⟩ :=
        ih (fun b hb => hf b (List.mem_cons_of_mem a hb)) h (hx0.trans hfirst)
      rw [List.map_cons, List.sum_cons, List.foldl_cons]
      refine ⟨List.forall_mem_cons.2 ⟨hfa, hfinite⟩, hfirst.trans hstart,
        List.forall_mem_cons.2 ⟨hsecond.trans hstart, hterms⟩, ?_⟩
      linarith [le_abs_self (toReal (x + f a))]

end Binary

/-- The taxicab length is not shorter than the parts, and bounded by the true length. -/
theorem Complex.taxicab_spec {z : Complex Float} (h : z.taxicab.isFinite = true) :
    z.isFinite = true ∧ |toReal z.re| ≤ toReal z.taxicab ∧ |toReal z.im| ≤ toReal z.taxicab ∧
      toReal z.taxicab ≤ 3 * ‖z.value‖ := by
  obtain ⟨hre, him⟩ := isFinite_of_add h
  have hround := (rounds_add hre him).of_isFinite h
  rw [(abs_spec (isFinite_of_abs hre)).2, (abs_spec (isFinite_of_abs him)).2] at hround
  have hre' := (isNumber_toReal (isFinite_of_abs hre)).abs
  have him' := (isNumber_toReal (isFinite_of_abs him)).abs
  refine ⟨isFinite_iff.2 ⟨isFinite_of_abs hre, isFinite_of_abs him⟩,
    hround.isNearest.ge_of_ge hre' (le_add_of_nonneg_right (abs_nonneg _)),
    hround.isNearest.ge_of_ge him' (le_add_of_nonneg_left (abs_nonneg _)), ?_⟩
  have hsum := hround.isNearest.abs_sum_le hre'
  rw [abs_abs, abs_abs] at hsum
  have hre'' := Complex.abs_re_le_norm z.value
  have him'' := Complex.abs_im_le_norm z.value
  rw [value_re] at hre''
  rw [value_im] at him''
  exact (le_abs_self _).trans (hsum.trans (by linarith))

namespace Reflection

/-! ## The numbers of a reflection -/

section Numbers

variable {R : Type} [Arith R] (order : Nat) (row : Nat → Complex R)

/-- The sum of the taxicab lengths that a row is divided by. -/
def scaleOf : R := Arith.sumOver (List.range order) fun k => (row k).taxicab

/-- The entries of the row, scaled. -/
def scaled (k : Nat) : Complex R := (row k).scale (1 / scaleOf order row)

/-- The squared length of the scaled row. -/
def square : R := Arith.sumOver (List.range order) fun k => (scaled order row k).magnitudeSq

def lastLength : R := (scaled order row (order - 1)).magnitude

/-- The last entry, lengthened by the length of the row. -/
def head : Complex R :=
  if !(lastLength order row == 0) then
    scaled order row (order - 1)
      + ((scaled order row (order - 1)).divReal (lastLength order row)).scale
          (Arith.sqrt (square order row))
  else ⟨Arith.sqrt (square order row), 0⟩

/-- The vector of the reflection, before it is made of the right length. -/
def lengthened (k : Nat) : Complex R :=
  if k + 1 < order then scaled order row k else head order row

/-- What makes the vector of the right length. -/
def shrink : R :=
  1 / Arith.sqrt (square order row + Arith.sqrt (square order row) * lastLength order row)

variable {order row}

theorem ofRow?_eq_none_iff : ofRow? order row = none ↔
    (scaleOf order row == 0 || !Arith.isFinite (1 / scaleOf order row)) = true := by
  simp only [ofRow?, scaleOf]
  split
  · rename_i h
    simp only [h]
  · rename_i h
    simp only [h, reduceCtorEq]

/-- The vector of a reflection is the scaled row with its last entry lengthened. -/
theorem coordinate_of_ofRow? {v : Reflection R} {x : Complex R} (hpos : 0 < order)
    (h : ofRow? order row = some (v, x)) {k : Nat} (hk : k < order) :
    v.coordinate k = (lengthened order row k).scale (shrink order row) := by
  obtain ⟨m, rfl⟩ : ∃ m, order = m + 1 := ⟨order - 1, by omega⟩
  simp only [ofRow?] at h
  split at h
  · cases h
  obtain ⟨rfl, -⟩ := Prod.mk.inj (Option.some.inj h)
  rw [Nat.add_sub_cancel, coordinate_push _ _ _ _ hk, lengthened]
  by_cases hkm : k < m
  · rw [if_pos hkm, if_pos (Nat.succ_lt_succ hkm)]
    rfl
  · rw [if_neg hkm, if_neg fun h => hkm (Nat.lt_of_succ_lt_succ h)]
    rfl

end Numbers

/-! ## Scaled rows -/

/-- A row that is scaled: the sum of its taxicab lengths is finite and not
zero, and can be divided by. -/
structure IsScalable (order : Nat) (row : Nat → Complex Float) : Prop where
  pos : 0 < order
  order_le : order ≤ orderLimit
  scale_isFinite : (scaleOf order row).isFinite = true
  scale_ne : (scaleOf order row == 0) = false
  unscale_isFinite : (1 / scaleOf order row).isFinite = true

/-- The exact squared length of a scaled row. -/
noncomputable def exactSquare (order : Nat) (row : Nat → Complex Float) : ℝ :=
  ∑ k ∈ Finset.range order, ‖(scaled order row k).value‖ ^ 2

namespace IsScalable

variable {order : Nat} {row : Nat → Complex Float}

theorem entries (h : IsScalable order row) :
    0 < toReal (scaleOf order row) ∧
      (∀ k < order, (row k).IsWithin (toReal (scaleOf order row))) ∧
      toReal (scaleOf order row) ≤ 6 * ∑ k ∈ Finset.range order, ‖(row k).value‖ := by
  have hnonneg : ∀ k ∈ List.range order, (row k).taxicab.isFinite = true →
      0 ≤ toReal (row k).taxicab := fun k _ hk =>
    (abs_nonneg _).trans (Complex.taxicab_spec hk).2.1
  obtain ⟨hfinite, hstart, hterms, hsum⟩ := foldl_add_bounds hnonneg h.scale_isFinite le_rfl
  have hsize : ∀ k < order, (row k).taxicab.isFinite = true := fun k hk =>
    hfinite k (List.mem_range.2 hk)
  refine ⟨lt_of_le_of_ne hstart (toReal_ne_zero_of_beq h.scale_isFinite h.scale_ne).symm,
    fun k hk => ?_, hsum.trans ?_⟩
  · obtain ⟨hrow, hre, him, -⟩ := Complex.taxicab_spec (hsize k hk)
    obtain ⟨hrefin, himfin⟩ := Complex.isFinite_iff.1 hrow
    have := hterms k (List.mem_range.2 hk)
    exact ⟨⟨hrefin, hre.trans this⟩, ⟨himfin, him.trans this⟩⟩
  · rw [toReal_zero, zero_add, sum_map_range, Fin.sum_univ_eq_sum_range fun k =>
      toReal (row k).taxicab]
    have : ∑ k ∈ Finset.range order, toReal (row k).taxicab
        ≤ ∑ k ∈ Finset.range order, 3 * ‖(row k).value‖ := Finset.sum_le_sum fun k hk =>
      (Complex.taxicab_spec (hsize k (Finset.mem_range.1 hk))).2.2.2
    rw [← Finset.mul_sum] at this
    linarith

/-- What the entries are multiplied by is near enough to the reciprocal. -/
theorem unscale_bounds (h : IsScalable order row) :
    1 / 2 ≤ toReal (1 / scaleOf order row) * toReal (scaleOf order row) ∧
      toReal (1 / scaleOf order row) * toReal (scaleOf order row) ≤ 2 := by
  obtain ⟨hpos, -, -⟩ := h.entries
  have hround := (rounds_div isFinite_one h.scale_isFinite hpos.ne').of_isFinite h.unscale_isFinite
  rw [toReal_one] at hround
  have hsmall : (2 : ℝ) ^ Float.Model.Format.binary64.minExponent
      ≤ 1 / toReal (scaleOf order row) := by
    rw [le_div_iff₀ hpos]
    have hlt := (le_abs_self _).trans_lt (abs_toReal_lt h.scale_isFinite)
    have hpow : (2 : ℝ) ^ Float.Model.Format.binary64.minExponent * 2 ^ 1024 ≤ 1 := by
      rw [← zpow_natCast, ← zpow_add₀ two_ne_zero]
      exact zpow_le_one_of_nonpos₀ one_le_two (by decide)
    exact (mul_le_mul_of_nonneg_left hlt.le (zpow_pos two_pos _).le).trans hpow
  have hlow := hround.isNearest.half_lt hsmall
  have hhigh := (le_abs_self _).trans hround.isNearest.abs_le_two_mul
  rw [abs_of_pos (by positivity)] at hhigh
  have hcancel : 1 / toReal (scaleOf order row) * toReal (scaleOf order row) = 1 :=
    one_div_mul_cancel hpos.ne'
  constructor
  · nlinarith
  · nlinarith

theorem unscale_nonneg (h : IsScalable order row) : 0 ≤ toReal (1 / scaleOf order row) := by
  by_contra! hneg
  nlinarith [h.entries.1, h.unscale_bounds.1]

theorem norm_mul_unscale_le (h : IsScalable order row) {k : Nat} (hk : k < order) :
    ‖(row k).value‖ * toReal (1 / scaleOf order row) ≤ 4 := by
  have hnorm := Complex.norm_value_le (h.entries.2.1 k hk)
  have := mul_le_mul_of_nonneg_right hnorm h.unscale_nonneg
  linarith [h.unscale_bounds.2]

/-- The scaled entries, beside the exact quotients. -/
theorem scaled_near (h : IsScalable order row) {k : Nat} (hk : k < order) :
    (scaled order row k).Near ((row k).value * toReal (1 / scaleOf order row))
      (2 * roundoff * (‖(row k).value‖ * toReal (1 / scaleOf order row)) + 2 * underflow) := by
  have hnear := Complex.scale_near (h.entries.2.1 k hk).isFinite h.unscale_isFinite
  rw [abs_of_nonneg h.unscale_nonneg] at hnear
  refine hnear ((h.norm_mul_unscale_le hk).trans_lt ?_)
  have := two_pow_lt_safeBound (k := 2) (by decide)
  linarith

/-- The scaled entries are not large. -/
theorem norm_scaled_le (h : IsScalable order row) {k : Nat} (hk : k < order) :
    ‖(scaled order row k).value‖ ≤ 5 := by
  have hle := (h.scaled_near hk).norm_le
  have hexact := h.norm_mul_unscale_le hk
  rw [norm_mul, Complex.norm_real, Real.norm_of_nonneg h.unscale_nonneg, roundoff_eq] at hle
  linarith [underflow_le]

theorem exactSquare_le (h : IsScalable order row) : exactSquare order row ≤ 2 ^ 25 := by
  have horder : (order : ℝ) ≤ 2 ^ 20 := by exact_mod_cast h.order_le
  have hterm : ∀ k ∈ Finset.range order, ‖(scaled order row k).value‖ ^ 2 ≤ 2 ^ 5 := fun k hk =>
    (pow_le_pow_left₀ (norm_nonneg _) (h.norm_scaled_le (Finset.mem_range.1 hk)) 2).trans
      (by norm_num)
  calc exactSquare order row ≤ ∑ _k ∈ Finset.range order, 2 ^ 5 := Finset.sum_le_sum hterm
    _ = order * 2 ^ 5 := by rw [Finset.sum_const, Finset.card_range, nsmul_eq_mul]
    _ ≤ 2 ^ 25 := by linarith

/-- The lengths of the scaled entries add up to something, as their taxicab lengths were
divided by their sum. -/
theorem sum_norm_scaled_ge (h : IsScalable order row) :
    1 / 16 ≤ ∑ k ∈ Finset.range order, ‖(scaled order row k).value‖ := by
  set c := toReal (1 / scaleOf order row)
  have hc := h.unscale_nonneg
  have hterm : ∀ k ∈ Finset.range order, (1 - 2 * roundoff) * (c * ‖(row k).value‖)
      ≤ ‖(scaled order row k).value‖ + 2 * underflow := fun k hk => by
    have hnear := (h.scaled_near (Finset.mem_range.1 hk)).error_le
    have := norm_sub_norm_le ((row k).value * (c : ℂ)) (scaled order row k).value
    rw [norm_sub_rev, norm_mul, Complex.norm_real, Real.norm_of_nonneg hc] at this
    linarith
  have hlow := Finset.sum_le_sum hterm
  rw [Finset.sum_add_distrib, Finset.sum_const, Finset.card_range, nsmul_eq_mul,
    ← Finset.mul_sum, ← Finset.mul_sum, roundoff_eq] at hlow
  have hsum : 1 / 12 ≤ c * ∑ k ∈ Finset.range order, ‖(row k).value‖ := by
    have := mul_le_mul_of_nonneg_left h.entries.2.2 hc
    linarith [h.unscale_bounds.1]
  linarith [mul_underflow_le h.order_le]

/-- The squares of the scaled entries are neither large nor lost. -/
theorem exactSquare_bounds (h : IsScalable order row) :
    1 / 2 ^ 28 ≤ exactSquare order row ∧ exactSquare order row ≤ 2 ^ 25 := by
  refine ⟨?_, h.exactSquare_le⟩
  have horder : (order : ℝ) ≤ 2 ^ 20 := by exact_mod_cast h.order_le
  have hcauchy := sq_sum_le_card_mul_sum_sq (s := Finset.range order)
    (f := fun k => ‖(scaled order row k).value‖)
  rw [Finset.card_range] at hcauchy
  have hsquare : (1 / 16) ^ 2 ≤ (order : ℝ) * exactSquare order row :=
    (pow_le_pow_left₀ (by norm_num) h.sum_norm_scaled_ge 2).trans hcauchy
  have := mul_le_mul_of_nonneg_right horder
    (by rw [exactSquare]; positivity : 0 ≤ exactSquare order row)
  linarith

theorem square_near (h : IsScalable order row) :
    Near (square order row) (exactSquare order row) (exactSquare order row / 2 ^ 29) := by
  have hη := mul_underflow_le h.order_le
  have hu := mul_roundoff_le h.order_le
  obtain ⟨hlow, hhigh⟩ := h.exactSquare_bounds
  have hterm : ∀ k < order, Near (scaled order row k).magnitudeSq (‖(scaled order row k).value‖ ^ 2)
      (3 * roundoff * ‖(scaled order row k).value‖ ^ 2 + 4 * underflow) := by
    intro k hk
    have hle := pow_le_pow_left₀ (norm_nonneg _) (h.norm_scaled_le hk) 2
    refine Complex.magnitudeSq_near (h.scaled_near hk).isFinite ?_
    have := two_pow_lt_safeBound (k := 6) (by decide)
    linarith
  -- the errors of the terms, and then that of the sum
  set t : ℕ → ℝ := fun k => ‖(scaled order row k).value‖ ^ 2 with ht
  have hS : exactSquare order row = ∑ k ∈ Finset.range order, t k := rfl
  have herrors : ∑ k ∈ Finset.range order, (3 * roundoff * t k + 4 * underflow)
      ≤ exactSquare order row / 2 ^ 40 + 1 / 2 ^ 178 := by
    rw [Finset.sum_add_distrib, ← Finset.mul_sum, Finset.sum_const, Finset.card_range,
      nsmul_eq_mul, ← hS, roundoff_eq]
    linarith
  have hterms : ∑ k ∈ Finset.range order, |toReal (scaled order row k).magnitudeSq|
      ≤ 2 * exactSquare order row := by
    have : ∀ k ∈ Finset.range order, |toReal (scaled order row k).magnitudeSq|
        ≤ t k + (3 * roundoff * t k + 4 * underflow) := fun k hk => by
      have := (hterm k (Finset.mem_range.1 hk)).abs_le
      rwa [abs_of_nonneg (sq_nonneg ‖(scaled order row k).value‖)] at this
    have := Finset.sum_le_sum this
    rw [Finset.sum_add_distrib, ← hS] at this
    linarith
  have hcap := two_pow_lt_safeBound (k := 30) (by decide)
  have hsum := sumOver_near (f := fun k => (scaled order row k).magnitudeSq) (by linarith)
    (fun k hk => (hterm k hk).isFinite) hterms (by linarith)
  refine ⟨hsum.isFinite, ?_⟩
  have hexact : |∑ k ∈ Finset.range order, toReal (scaled order row k).magnitudeSq
      - exactSquare order row| ≤ exactSquare order row / 2 ^ 40 + 1 / 2 ^ 178 := by
    rw [hS, ← Finset.sum_sub_distrib]
    refine (Finset.abs_sum_le_sum_abs _ _).trans ((Finset.sum_le_sum fun k hk => ?_).trans herrors)
    exact (hterm k (Finset.mem_range.1 hk)).error_le
  refine (abs_sub_le _ (∑ k ∈ Finset.range order, toReal (scaled order row k).magnitudeSq)
    _).trans ?_
  have hround := mul_le_mul_of_nonneg_right hu (by linarith : 0 ≤ 4 * exactSquare order row)
  refine (add_le_add hsum.error_le hexact).trans ?_
  linarith

end IsScalable

end Reflection

end DenseNumeric
