import DenseNumeric.Proofs.Exact
import DenseNumeric.Proofs.Unitary
import DenseNumeric.Proofs.ZeroPattern

/-!
# The Hessenberg form, exactly

A reflection of the library is the matrix `reflector v`, and applying it is a
product with that matrix. The zeros that the reduction has made so far are
what lets it apply a reflection to a part of the matrix only.

`Reflection.ofRow?_spec` is the one computation: the vector that is made from
a row has squared length two, and its reflection moves the row onto its last
coordinate. A row without a reflection is zero there already, so that nothing
is lost when it is cleared.
-/

namespace DenseNumeric

open Matrix

variable {n : Nat}

/-! ## The vector of a reflection -/

/-- The vector `y` made into that of the reflection which moves it onto its
last coordinate: scaled by `h`, and at the end lengthened by `g` in its own
direction `p`. -/
def reflectionVector (m : Nat) (y : Nat → ℂ) (p : ℂ) (f g h : ℝ) (k : Nat) : ℂ :=
  if k < m then y k * h else (f + g) * p * h

/-- How these numbers belong together: the last coordinate is `f` in the
direction `p`, the length is `g`, and `h` makes the squared length two. -/
structure IsReflected (m : Nat) (y : Nat → ℂ) (p : ℂ) (f g h : ℝ) : Prop where
  unit : p * star p = 1
  last : y m = f * p
  length : ∑ k ∈ Finset.range (m + 1), y k * star (y k) = (g : ℂ) ^ 2
  shrink : (h : ℂ) ^ 2 * (g ^ 2 + g * f) = 1

namespace IsReflected

variable {m : Nat} {y : Nat → ℂ} {p : ℂ} {f g h : ℝ}

theorem sum_mul_star (d : IsReflected m y p f g h) :
    ∑ k ∈ Finset.range (m + 1), y k * star (reflectionVector m y p f g h k)
      = h * (g ^ 2 + g * f) := by
  have head : ∀ k ∈ Finset.range m, y k * star (reflectionVector m y p f g h k)
      = h * (y k * star (y k)) := by
    intro k hk
    rw [reflectionVector, if_pos (Finset.mem_range.1 hk)]
    simp only [star_mul', RCLike.star_def, Complex.conj_ofReal]
    ring
  have hp := d.unit
  have hg := d.length
  rw [Finset.sum_range_succ, d.last] at hg
  rw [Finset.sum_range_succ, Finset.sum_congr rfl head, ← Finset.mul_sum, reflectionVector,
    if_neg (lt_irrefl m), d.last]
  simp only [star_mul', star_add, RCLike.star_def, Complex.conj_ofReal] at hg hp ⊢
  linear_combination (h : ℂ) * hg + (h : ℂ) * f * g * hp

theorem sum_sq (d : IsReflected m y p f g h) :
    ∑ k ∈ Finset.range (m + 1),
      reflectionVector m y p f g h k * star (reflectionVector m y p f g h k) = 2 := by
  have head : ∀ k ∈ Finset.range m,
      reflectionVector m y p f g h k * star (reflectionVector m y p f g h k)
        = (h : ℂ) ^ 2 * (y k * star (y k)) := by
    intro k hk
    rw [reflectionVector, if_pos (Finset.mem_range.1 hk)]
    simp only [star_mul', RCLike.star_def, Complex.conj_ofReal]
    ring
  have hp := d.unit
  have hg := d.length
  rw [Finset.sum_range_succ, d.last] at hg
  rw [Finset.sum_range_succ, Finset.sum_congr rfl head, ← Finset.mul_sum, reflectionVector,
    if_neg (lt_irrefl m)]
  simp only [star_mul', star_add, RCLike.star_def, Complex.conj_ofReal] at hg hp ⊢
  linear_combination (h : ℂ) ^ 2 * hg + (h : ℂ) ^ 2 * (2 * f * g + g ^ 2) * hp + 2 * d.shrink

end IsReflected

/-- The direction of a number, that of one for zero. -/
noncomputable def phase (z : ℂ) : ℂ := if ‖z‖ = 0 then 1 else z / ‖z‖

theorem phase_mul_star (z : ℂ) : phase z * star (phase z) = 1 := by
  unfold phase
  split_ifs with hz
  · simp
  · have hz' : (‖z‖ : ℂ) ≠ 0 := by exact_mod_cast hz
    rw [star_div₀, div_mul_div_comm]
    simp only [RCLike.star_def, Complex.mul_conj, Complex.conj_ofReal, Complex.normSq_eq_norm_sq]
    push_cast
    field_simp

theorem norm_mul_phase (z : ℂ) : ‖z‖ * phase z = z := by
  unfold phase
  split_ifs with hz
  · rw [norm_eq_zero.1 hz]
    simp
  · have hz' : (‖z‖ : ℂ) ≠ 0 := by exact_mod_cast hz
    field_simp

/-- Every vector but zero has such numbers. -/
theorem isReflected {m : Nat} {y : Nat → ℂ} {q : ℝ}
    (hq : ∑ k ∈ Finset.range (m + 1), ‖y k‖ ^ 2 = q) (hpos : 0 < q) :
    IsReflected m y (phase (y m)) ‖y m‖ √q (1 / √(q + √q * ‖y m‖)) where
  unit := phase_mul_star (y m)
  last := (norm_mul_phase (y m)).symm
  length := by
    rw [← Complex.ofReal_pow, Real.sq_sqrt hpos.le, ← hq]
    push_cast
    refine Finset.sum_congr rfl fun k _ => ?_
    rw [RCLike.star_def, Complex.mul_conj, Complex.normSq_eq_norm_sq, Complex.ofReal_pow]
  shrink := by
    have hden : 0 < q + √q * ‖y m‖ := by positivity
    have : (1 / √(q + √q * ‖y m‖)) ^ 2 * (√q ^ 2 + √q * ‖y m‖) = 1 := by
      rw [div_pow, Real.sq_sqrt hden.le, Real.sq_sqrt hpos.le]
      field_simp
    exact_mod_cast this

/-! ## Reflections as matrices -/

namespace Reflection

theorem sumOver_range (n : Nat) (f : Nat → ℝ) :
    Arith.sumOver (List.range n) f = ∑ k ∈ Finset.range n, f k := by
  rw [Arith.sumOver_eq_sum, sum_map_range, Fin.sum_univ_eq_sum_range]

/-- A row without a reflection is zero already. -/
theorem ofRow?_eq_none {order : Nat} {row : Nat → Complex ℝ} (h : ofRow? order row = none) :
    ∀ k < order, row k = 0 := by
  simp only [ofRow?, Arith.isFinite_exact, Bool.not_true, Bool.or_false, beq_iff_eq] at h
  split at h
  · rename_i hscale
    rw [sumOver_range,
      Finset.sum_eq_zero_iff_of_nonneg fun k _ => Complex.taxicab_nonneg _] at hscale
    intro k hk
    exact Complex.taxicab_eq_zero.1 (hscale k (Finset.mem_range.2 hk))
  · cases h

theorem sum_norm_sq_pos {m : Nat} {row : Nat → Complex ℝ} {c : ℝ}
    (hc : Arith.sumOver (List.range m) (fun k => (row k).taxicab) = c) (hc0 : c ≠ 0) :
    0 < ∑ k ∈ Finset.range m, ‖(row k).toC / c‖ ^ 2 := by
  refine lt_of_le_of_ne (by positivity) fun h0 => hc0 ?_
  rw [← hc, sumOver_range]
  refine Finset.sum_eq_zero fun k hk => ?_
  have hzero := (Finset.sum_eq_zero_iff_of_nonneg fun k _ => by positivity).1 h0.symm k hk
  simpa [hc0, Complex.taxicab_eq_zero] using hzero

/-- The last coordinate of a reflection vector, before it is scaled. -/
theorem toC_head (z : Complex ℝ) (g : ℝ) :
    (if (!‖z.toC‖ == 0) = true then z + (z.divReal ‖z.toC‖).scale g else ⟨g, 0⟩).toC
      = (‖z.toC‖ + g) * phase z.toC := by
  have hreal : (⟨g, 0⟩ : Complex ℝ).toC = g := rfl
  by_cases hz : ‖z.toC‖ = 0
  · rw [if_neg (by simpa using hz), hreal, phase, if_pos hz, hz, Complex.ofReal_zero, zero_add,
      mul_one]
  · have hphase := norm_mul_phase z.toC
    rw [phase, if_neg hz] at hphase
    rw [if_pos (by simpa using hz), Complex.toC_add, Complex.toC_scale, Complex.toC_divReal, phase,
      if_neg hz, add_mul, hphase, mul_comm (g : ℂ)]

/-- What the row is replaced by. -/
theorem toC_image (z : Complex ℝ) (g c : ℝ) :
    (if (!‖z.toC‖ == 0) = true then ⟨-g * c, 0⟩ * z.divReal ‖z.toC‖ else ⟨-g * c, 0⟩).toC
      = -(g * phase z.toC) * c := by
  have hreal : (⟨-g * c, 0⟩ : Complex ℝ).toC = ((-g * c : ℝ) : ℂ) := rfl
  by_cases hz : ‖z.toC‖ = 0
  · rw [if_neg (by simpa using hz), hreal, phase, if_pos hz]
    push_cast
    ring
  · rw [if_pos (by simpa using hz), Complex.toC_mul, hreal, Complex.toC_divReal, phase, if_neg hz]
    push_cast
    ring

/-- The numbers that a reflection is made from are those of the row, divided
by its taxicab length. -/
theorem ofRow?_eq_some {m : Nat} {row : Nat → Complex ℝ} {v : Reflection ℝ} {x : Complex ℝ}
    (h : ofRow? (m + 1) row = some (v, x)) :
    ∃ (c f g h : ℝ) (p : ℂ), c ≠ 0 ∧ IsReflected m (fun k => (row k).toC / c) p f g h ∧
      (∀ k < m + 1, (v.coordinate k).toC
        = reflectionVector m (fun k => (row k).toC / c) p f g h k) ∧
      x.toC = -(g * p) * c := by
  simp only [ofRow?, Arith.isFinite_exact, Bool.not_true, Bool.or_false, beq_iff_eq,
    Nat.add_sub_cancel] at h
  split at h
  · cases h
  rename_i hscale
  generalize hc : Arith.sumOver (List.range (m + 1)) (fun k => (row k).taxicab) = c at h hscale
  have hy : ∀ k, ((row k).scale (1 / c)).toC = (row k).toC / c := by
    intro k
    rw [Complex.toC_scale]
    push_cast
    ring
  have hpos := sum_norm_sq_pos hc hscale
  generalize hq : ∑ k ∈ Finset.range (m + 1), ‖(row k).toC / c‖ ^ 2 = q at hpos
  have hsquare : ∑ k ∈ Finset.range (m + 1), ‖((row k).scale (1 / c)).toC‖ ^ 2 = q := by
    simp only [hy]
    exact hq
  simp only [sumOver_range, Complex.magnitudeSq_eq, Complex.magnitude_eq_norm, Arith.sqrt_exact,
    hsquare] at h
  obtain ⟨rfl, rfl⟩ := Prod.mk.inj (Option.some.inj h)
  refine ⟨c, _, _, _, _, hscale, isReflected hq hpos, ?_, ?_⟩
  · intro k hk
    rw [coordinate_push _ _ _ _ hk, reflectionVector, ← hy m]
    split
    · rw [Complex.toC_scale, hy]
    · rw [Complex.toC_scale, toC_head]
  · rw [toC_image, hy]

/-- The vector of squared length two, and what its reflection makes of the row. -/
theorem ofRow?_spec {i : Nat} {row : Nat → Complex ℝ} {v : Reflection ℝ} {x : Complex ℝ}
    (hi : 0 < i) (h : ofRow? i row = some (v, x)) :
    (∑ k ∈ Finset.range i, (v.coordinate k).toC * star (v.coordinate k).toC) = 2 ∧
      ∀ k < i, (row k).toC
          - (∑ l ∈ Finset.range i, (row l).toC * star (v.coordinate l).toC) * (v.coordinate k).toC
        = if k + 1 = i then x.toC else 0 := by
  obtain ⟨m, rfl⟩ : ∃ m, i = m + 1 := ⟨i - 1, by omega⟩
  obtain ⟨c, f, g, h, p, hc, d, hv, hx⟩ := ofRow?_eq_some h
  have hc' : (c : ℂ) ≠ 0 := by exact_mod_cast hc
  have hrow : ∀ k, (row k).toC = c * ((row k).toC / c) := fun k => by field_simp
  have hinner : ∑ l ∈ Finset.range (m + 1), (row l).toC * star (v.coordinate l).toC
      = c * (h * (g ^ 2 + g * f)) := by
    rw [← d.sum_mul_star, Finset.mul_sum]
    refine Finset.sum_congr rfl fun l hl => ?_
    rw [hv l (Finset.mem_range.1 hl), hrow l, mul_assoc]
    field_simp
  constructor
  · rw [← d.sum_sq]
    refine Finset.sum_congr rfl fun k hk => ?_
    rw [hv k (Finset.mem_range.1 hk)]
  · intro k hk
    rw [hinner, hv k hk, reflectionVector]
    split_ifs with hkm hlast hlast
    · omega
    · linear_combination -(row k).toC * d.shrink + h ^ 2 * (g ^ 2 + g * f) * hrow k
    · obtain rfl : k = m := by omega
      rw [hx, hrow k, d.last]
      linear_combination -c * (f + g) * p * d.shrink
    · omega

theorem toC_sum {v : Reflection ℝ} (hv : 0 < v.order) (f : Nat → Complex ℝ) :
    (v.sum f).toC = ∑ k ∈ Finset.range v.order, (f k).toC := by
  obtain ⟨m, hm⟩ : ∃ m, v.order = m + 1 := ⟨v.order - 1, by omega⟩
  rw [sum, hm, Nat.add_sub_cancel, Complex.toC_foldl_add, sum_map_range,
    Fin.sum_univ_eq_sum_range fun k => (f k).toC, Finset.sum_range_succ, add_comm]

/-- The vector of a reflection among all coordinates. -/
noncomputable def toVec (v : Reflection ℝ) : Fin n → ℂ := fun k =>
  if (k : Nat) < v.order then (v.coordinate k).toC else 0

theorem sum_toVec {v : Reflection ℝ} (hv : v.order ≤ n) (f : ℂ → Nat → ℂ)
    (hf : ∀ k, f 0 k = 0) :
    ∑ k : Fin n, f (v.toVec k) k = ∑ k ∈ Finset.range v.order, f (v.coordinate k).toC k := by
  have split : ∀ k : Fin n, f (v.toVec k) k
      = if (k : Nat) < v.order then f (v.coordinate k).toC k else 0 := by
    intro k
    rw [toVec]
    split_ifs
    · rfl
    · exact hf k
  rw [Finset.sum_congr rfl fun k _ => split k,
    Fin.sum_univ_eq_sum_range fun k => if k < v.order then f (v.coordinate k).toC k else 0,
    ← Finset.sum_filter]
  refine Finset.sum_congr ?_ fun _ _ => rfl
  ext k
  simp only [Finset.mem_filter, Finset.mem_range]
  omega

/-- A reflection is a product from the left, if columns that are left out
have nothing among its coordinates. -/
theorem toCMatrix_applyLeft {v : Reflection ℝ} (hpos : 0 < v.order) (hv : v.order ≤ n) {cols : Nat}
    {a : DenseMatrix n n (Complex ℝ)}
    (hout : ∀ l j, l < v.order → cols ≤ j → j < n → a l j = 0) :
    (v.applyLeft cols a).toCMatrix = reflector v.toVec * a.toCMatrix := by
  ext k j
  rw [reflector_mul_apply, DenseMatrix.toCMatrix_apply, DenseMatrix.toCMatrix_apply,
    applyLeft_apply v cols a k.isLt j.isLt]
  have inner : ∑ l, v.toVec l * a.toCMatrix l j
      = ∑ l ∈ Finset.range v.order, (v.coordinate l).toC * (a l j).toC :=
    sum_toVec hv (fun z l => z * (a l j).toC) fun _ => zero_mul _
  rw [inner]
  by_cases hk : (k : Nat) < v.order
  · by_cases hj : (j : Nat) < cols
    · rw [if_pos ⟨hk, hj⟩, toVec, if_pos hk, Complex.toC_sub, Complex.toC_mul, toC_sum hpos,
        Complex.toC_conj, mul_comm]
      rfl
    · have zero : ∑ l ∈ Finset.range v.order, (v.coordinate l).toC * (a l j).toC = 0 := by
        refine Finset.sum_eq_zero fun l hl => ?_
        rw [hout l j (Finset.mem_range.1 hl) (by omega) j.isLt, Complex.toC_zero, mul_zero]
      rw [if_neg (fun h => hj h.2), zero, mul_zero, sub_zero]
  · rw [if_neg (fun h => hk h.1), toVec, if_neg hk, star_zero, zero_mul, sub_zero]

end Reflection

/-! ## One row -/

namespace Reduction

open Reflection

/-- Row `i` cleared and the rows above it reflected is the product with the
reflection from the right, as the rows below have nothing to reflect. -/
theorem toCMatrix_applyRight {a : DenseMatrix n n (Complex ℝ)} {i : Nat} {v : Reflection ℝ}
    {x : Complex ℝ} (hi : 2 ≤ i) (hin : i < n) (hbelow : a.IsHessenbergFrom (i + 1))
    (h : ofRow? i (a i) = some (v, x)) :
    (v.applyRight (withRow a i x)).toCMatrix = a.toCMatrix * reflector v.toVec := by
  obtain rfl := order_of_ofRow? h
  have spec := (ofRow?_spec (by omega) h).2
  ext j k
  have inner : ∑ l, a.toCMatrix j l * star (v.toVec l)
      = ∑ l ∈ Finset.range v.order, (a j l).toC * star (v.coordinate l).toC :=
    sum_toVec hin.le (fun z l => (a j l).toC * star z) fun _ => by simp
  rw [mul_reflector_apply, DenseMatrix.toCMatrix_apply, DenseMatrix.toCMatrix_apply, inner,
    applyRight_apply v _ j.isLt k.isLt, withRow_apply a _ x j.isLt k.isLt]
  by_cases hk : (k : Nat) < v.order
  · rw [toVec, if_pos hk]
    rcases Nat.lt_trichotomy j v.order with hj | hj | hj
    · rw [if_pos ⟨hj, hk⟩, if_neg (by omega), Complex.toC_sub, Complex.toC_mul, toC_sum (by omega)]
      congr 2
      refine Finset.sum_congr rfl fun l hl => ?_
      rw [withRow_apply a _ x j.isLt ((Finset.mem_range.1 hl).trans hin), if_neg (by omega),
        Complex.toC_mul, Complex.toC_conj, mul_comm]
    · -- the row itself is not reflected: its image was written
      rw [if_neg (by omega), if_pos ⟨hj, hk⟩, hj, spec k hk]
      split_ifs <;> rfl
    · have zero : ∑ l ∈ Finset.range v.order, (a j l).toC * star (v.coordinate l).toC = 0 := by
        refine Finset.sum_eq_zero fun l hl => ?_
        have hl' := Finset.mem_range.1 hl
        rw [hbelow j l (by omega) j.isLt (by omega), Complex.toC_zero, zero_mul]
      rw [if_neg (by omega), if_neg (by omega), zero, zero_mul, sub_zero]
  · rw [toVec, if_neg hk, if_neg (fun h => hk h.2), if_neg (fun h => hk h.2), mul_zero, sub_zero]

/-- What `clearRow` does, read exactly: nothing, or a similarity by the
reflection that it notes. -/
theorem clearRow_exact {r : Reduction n ℝ} {i : Nat} (hi : 2 ≤ i) (hin : i < n)
    (hbelow : r.matrix.IsHessenbergFrom (i + 1)) :
    ((r.clearRow i).matrix.toCMatrix = r.matrix.toCMatrix ∧
        (r.clearRow i).reflections = r.reflections) ∨
      ∃ v : Reflection ℝ, v.order = i ∧ (v.toVec : Fin n → ℂ) ⬝ᵥ star v.toVec = 2 ∧
        (r.clearRow i).matrix.toCMatrix
          = reflector v.toVec * r.matrix.toCMatrix * reflector v.toVec ∧
        (r.clearRow i).reflections = v :: r.reflections := by
  cases h : ofRow? i (r.matrix i) with
  | none =>
      refine .inl ⟨?_, by rw [clearRow_of_none h]⟩
      rw [clearRow_of_none h]
      ext j k
      rw [DenseMatrix.toCMatrix_apply, DenseMatrix.toCMatrix_apply,
        withRow_apply _ _ _ j.isLt k.isLt]
      split_ifs with hjk
      · rw [hjk.1, ofRow?_eq_none h k hjk.2]
      · rw [hjk.1, ofRow?_eq_none h k hjk.2]
      · rfl
  | some p =>
      obtain ⟨v, x⟩ := p
      have hv := order_of_ofRow? h
      refine .inr ⟨v, hv, ?_, ?_, by rw [clearRow_of_some h]⟩
      · rw [← (ofRow?_spec (by omega) h).1, ← hv]
        exact sum_toVec (by omega) (fun z _ => z * star z) fun _ => by simp
      · rw [clearRow_of_some h, toCMatrix_applyLeft (by omega) (by omega) (by omega),
          toCMatrix_applyRight hi hin hbelow h, Matrix.mul_assoc]

/-! ## All rows -/

/-- The product of reflections, the latest first in the list and last in the
product. -/
noncomputable def product (n : Nat) : List (Reflection ℝ) → Matrix (Fin n) (Fin n) ℂ
  | [] => 1
  | v :: vs => product n vs * reflector v.toVec

theorem product_mem_unitaryGroup {vs : List (Reflection ℝ)}
    (h : ∀ v ∈ vs, (v.toVec : Fin n → ℂ) ⬝ᵥ star v.toVec = 2) :
    product n vs ∈ unitaryGroup (Fin n) ℂ := by
  induction vs with
  | nil => exact one_mem _
  | cons v vs ih =>
      exact mul_mem (ih fun w hw => h w (List.mem_cons_of_mem v hw))
        (reflector_mem_unitaryGroup (h v List.mem_cons_self))

/-- The reduction has got to row `i`: the rows below are done, by reflections
of fewer and fewer coordinates that are a unitary similarity. -/
structure IsReductionOf (a : DenseMatrix n n (Complex ℝ)) (i : Nat) (r : Reduction n ℝ) : Prop where
  isHessenbergFrom : r.matrix.IsHessenbergFrom i
  order_bounds : ∀ v ∈ r.reflections, i ≤ v.order ∧ v.order ≤ n
  ascending : r.reflections.Pairwise fun v w => v.order ≤ w.order
  unit : ∀ v ∈ r.reflections, (v.toVec : Fin n → ℂ) ⬝ᵥ star v.toVec = 2
  similar : a.toCMatrix
    = product n r.reflections * r.matrix.toCMatrix * (product n r.reflections)ᴴ

namespace IsReductionOf

variable {a : DenseMatrix n n (Complex ℝ)}

theorem start : IsReductionOf a (max n 2) ⟨a, []⟩ where
  isHessenbergFrom := fun i k hi hin => by omega
  order_bounds := fun v hv => absurd hv List.not_mem_nil
  ascending := .nil
  unit := fun v hv => absurd hv List.not_mem_nil
  similar := by simp [product]

theorem clearRow {i : Nat} {r : Reduction n ℝ} (hi : 2 ≤ i) (hin : i < n)
    (h : IsReductionOf a (i + 1) r) : IsReductionOf a i (r.clearRow i) := by
  have hform := clearRow_isHessenbergFrom h.isHessenbergFrom
  have horders : ∀ v ∈ r.reflections, i ≤ v.order ∧ v.order ≤ n := fun v hv =>
    ⟨by have := (h.order_bounds v hv).1; omega, (h.order_bounds v hv).2⟩
  rcases clearRow_exact hi hin h.isHessenbergFrom with ⟨hm, hr⟩ | ⟨v, hv, hunit, hm, hr⟩
  · constructor
    · exact hform
    · rw [hr]
      exact horders
    · rw [hr]
      exact h.ascending
    · rw [hr]
      exact h.unit
    · rw [hr, hm]
      exact h.similar
  · constructor
    · exact hform
    · rw [hr, List.forall_mem_cons]
      exact ⟨by omega, horders⟩
    · rw [hr, List.pairwise_cons]
      exact ⟨fun w hw => by have := (horders w hw).1; omega, h.ascending⟩
    · rw [hr, List.forall_mem_cons]
      exact ⟨hunit, h.unit⟩
    · -- the reflection is its own inverse, so the product may take one from either side
      have hinv : reflector (v.toVec : Fin n → ℂ) * reflector v.toVec = 1 :=
        reflector_mul_self hunit
      rw [hr, hm, product, conjTranspose_mul, conjTranspose_reflector, h.similar]
      calc product n r.reflections * r.matrix.toCMatrix * (product n r.reflections)ᴴ
          = product n r.reflections * 1 * r.matrix.toCMatrix * 1 * (product n r.reflections)ᴴ := by
            rw [Matrix.mul_one, Matrix.mul_one]
        _ = _ := by
            rw [← hinv]
            simp only [Matrix.mul_assoc]

theorem ofMatrix : IsReductionOf a 2 (Reduction.ofMatrix a) :=
  Reduction.induction start fun _ _ hi hin h => h.clearRow hi hin

end IsReductionOf

/-! ## The basis -/

/-- From column `m` on there is nothing off the diagonal. -/
def IsLeading (q : DenseMatrix n n (Complex ℝ)) (m : Nat) : Prop :=
  ∀ l j, l < n → j < n → m ≤ j → l ≠ j → q l j = 0

/-- Reflections of more and more coordinates are applied to columns that are
still those of the identity, or were reflected already. -/
theorem toCMatrix_foldl_applyLeft {vs : List (Reflection ℝ)} {q : DenseMatrix n n (Complex ℝ)}
    {m : Nat} (hq : IsLeading q m) (hbounds : ∀ v ∈ vs, 0 < v.order ∧ m ≤ v.order ∧ v.order ≤ n)
    (hasc : vs.Pairwise fun v w => v.order ≤ w.order) :
    (vs.foldl (fun q v => v.applyLeft v.order q) q).toCMatrix = product n vs * q.toCMatrix := by
  induction vs generalizing q m with
  | nil => simp [product]
  | cons v vs ih =>
      obtain ⟨⟨hpos, hm, hn⟩, hbounds⟩ := List.forall_mem_cons.1 hbounds
      obtain ⟨hv, hasc⟩ := List.pairwise_cons.1 hasc
      have hlead : IsLeading (v.applyLeft v.order q) v.order := by
        intro l j hl hj hvj hlj
        rw [applyLeft_apply v _ q hl hj, if_neg (by omega)]
        exact hq l j hl hj (by omega) hlj
      have htail : ∀ w ∈ vs, 0 < w.order ∧ v.order ≤ w.order ∧ w.order ≤ n := fun w hw =>
        ⟨(hbounds w hw).1, hv w hw, (hbounds w hw).2.2⟩
      have hout : ∀ l j, l < v.order → v.order ≤ j → j < n → q l j = 0 := fun l j hl hj hjn =>
        hq l j (by omega) hjn (by omega) (by omega)
      rw [List.foldl_cons, ih hlead htail hasc, toCMatrix_applyLeft hpos hn hout, product,
        Matrix.mul_assoc]

theorem IsReductionOf.toCMatrix_basis {a : DenseMatrix n n (Complex ℝ)} {r : Reduction n ℝ}
    (h : IsReductionOf a 2 r) : r.basis.toCMatrix = product n r.reflections := by
  have hid : IsLeading (.identity : DenseMatrix n n (Complex ℝ)) 0 := by
    intro l j hl hj _ hlj
    rw [DenseMatrix.identity, DenseMatrix.apply_of_lt _ hl hj, if_neg hlj]
  rw [basis, toCMatrix_foldl_applyLeft hid (fun v hv => ?_) h.ascending,
    DenseMatrix.toCMatrix_identity, Matrix.mul_one]
  have := h.order_bounds v hv
  omega

end Reduction

namespace DenseMatrix

theorem exists_basis_hessenberg (a : DenseMatrix n n (Complex ℝ)) :
    ∃ q, (a.hessenberg true).basis = some q ∧ q.toCMatrix ∈ unitaryGroup (Fin n) ℂ ∧
      a.toCMatrix = q.toCMatrix * (a.hessenberg true).matrix.toCMatrix * q.toCMatrixᴴ := by
  have h : Reduction.IsReductionOf a 2 (Reduction.ofMatrix a) := .ofMatrix
  refine ⟨(Reduction.ofMatrix a).basis, rfl, ?_, ?_⟩
  · rw [h.toCMatrix_basis]
    exact Reduction.product_mem_unitaryGroup h.unit
  · rw [h.toCMatrix_basis]
    exact h.similar

/-- Every matrix is, in a unitary basis, the Hessenberg matrix that the
reduction makes of it. -/
theorem hessenberg_isUnitarilySimilar (a : DenseMatrix n n (Complex ℝ)) :
    ∃ q, (a.hessenberg true).basis = some q ∧ q.toCMatrix ∈ unitaryGroup (Fin n) ℂ ∧
      (∀ r c, r < n → c + 1 < r → (a.hessenberg true).matrix r c = 0) ∧
      a.toCMatrix = q.toCMatrix * (a.hessenberg true).matrix.toCMatrix * q.toCMatrixᴴ := by
  obtain ⟨q, hbasis, hq, hsimilar⟩ := a.exists_basis_hessenberg
  exact ⟨q, hbasis, hq, Reduction.ofMatrix_isHessenberg a, hsimilar⟩

end DenseMatrix

end DenseNumeric
