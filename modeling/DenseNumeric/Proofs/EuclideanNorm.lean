import Mathlib
import DenseNumeric.NumArray.Norm
import DenseNumeric.Proofs.CheckedElimination
import DenseNumeric.Proofs.SchurForm
import DenseNumeric.Proofs.Sizes

/-!
# The Euclidean norm

The components are divided by the largest of them before they are squared. One
of the quotients is then one or minus one, exactly, and the others are not
larger; so the sum of their squares has a term that is one, and rounding does
not take a sum of squares below any of its terms. The root is at least one for
the same reason, and the product with the largest component at least that
component: nothing is lost at the lower end of the range, whatever the
components are (`reaches_euclideanNorm`). An overflow of the product is an
infinity, which is not below anything.

In exact arithmetic the scaling cancels, and the norm is the length that the
other algorithms find by folding `hypot` over the elements.
-/

namespace DenseNumeric

open Binary

/-! ## In double precision -/

section Float

variable {xs : List Float} {x l : Float} {c : ℝ}

theorem any_undefined_iff :
    (xs.any fun x => !(x == x)) = true ↔ ∃ x ∈ xs, x.isNaN = true := by
  rw [List.any_eq_true]
  refine exists_congr fun x => and_congr_right fun _ => ?_
  rw [Bool.not_eq_true', Bool.eq_false_iff, ne_eq, beq_self_iff, Bool.not_eq_false]

theorem not_any_undefined (hxs : ∀ x ∈ xs, x.isNaN = false) :
    ¬(xs.any fun x => !(x == x)) = true := by
  rw [any_undefined_iff]
  rintro ⟨x, hx, hnan⟩
  exact absurd hnan (Bool.eq_false_iff.1 (hxs x hx))

/-- A component over a number that is not smaller, squared. -/
theorem reaches_sq_div (hx : Bounded x (toReal l)) (hl : l.isFinite = true) (hpos : 0 < toReal l) :
    Reaches (x / l * (x / l)) 0 ∧ (|toReal x| = toReal l → Reaches (x / l * (x / l)) 1) := by
  have hquotient := (hx.div_of_le hl hpos hx.abs_le).isFinite
  have hsquare := rounds_mul hquotient hquotient
  refine ⟨hsquare.reaches (isNumber_zero _) le_rfl (mul_self_nonneg _), fun heq => ?_⟩
  have hone : (1 : ℝ) ≤ |toReal x / toReal l| := by
    rw [abs_div, abs_of_pos hpos, heq, div_self hpos.ne']
  have hle : 1 ≤ |toReal (x / l)| :=
    ((rounds_div hx.isFinite hl hpos.ne').of_isFinite hquotient).isNearest.le_abs_of_le
      (isNumber_one (by decide)) hone
  refine hsquare.reaches (isNumber_one (by decide)) zero_le_one ?_
  rw [← abs_mul_abs_self]
  nlinarith

/-- If the largest component is finite, so are all. -/
theorem bounded_of_largestOver (hl : (Arith.largestOver xs Arith.abs).isFinite = true)
    (hx : x ∈ xs) (hdefined : x.isNaN = false) :
    Bounded x (toReal (Arith.largestOver xs Arith.abs)) := by
  rcases isFinite_or_isInf hdefined with hfinite | hinf
  · have hbelow := reaches_largestOver_of_mem hx (reaches_abs_of_isFinite hfinite)
    exact ⟨hfinite, hbelow.toReal_le hl⟩
  · have hlarge := (isFinite_largestOver_iff fun y _ => isSize_abs y).2
      ⟨x, hx, congrArg Float.Model.UnpackedFloat.isInf (unpack_abs_of_isInf hinf)⟩
    rw [hl] at hlarge
    cases hlarge

theorem reaches_sum_sq_div (hxs : ∀ x ∈ xs, x.isNaN = false)
    (hmax : l = Arith.largestOver xs Arith.abs) (hl : l.isFinite = true) (hpos : 0 < toReal l) :
    Reaches (Arith.sumOver xs fun x => x / l * (x / l)) 1 := by
  have hbounded (x : Float) (hx : x ∈ xs) : Bounded x (toReal l) :=
    hmax ▸ bounded_of_largestOver (hmax ▸ hl) hx (hxs x hx)
  -- one of them is the largest component, as that is not zero
  obtain ⟨x, hx, hattained⟩ : ∃ x ∈ xs, l = Arith.abs x := by
    rw [hmax]
    refine (Arith.largestOver_eq_zero_or xs Arith.abs).resolve_left fun hzero => ?_
    rw [hmax, hzero, toReal_zero] at hpos
    exact lt_irrefl 0 hpos
  have hvalue : |toReal x| = toReal l := by rw [hattained, (abs_spec (hbounded x hx).isFinite).2]
  exact reaches_sumOver (fun y hy => (reaches_sq_div (hbounded y hy) hl hpos).1) hx
    (isNumber_one (by decide)) zero_le_one ((reaches_sq_div (hbounded x hx) hl hpos).2 hvalue)

/-- The norm is not below anything that the largest component is not below. -/
theorem reaches_euclideanNorm (hxs : ∀ x ∈ xs, x.isNaN = false)
    (h : Reaches (Arith.largestOver xs Arith.abs) c) : Reaches (euclideanNorm xs) c := by
  have hreaches := reaches_largestOver xs Arith.abs
  rw [euclideanNorm, if_neg (not_any_undefined hxs)]
  split
  · exact h
  · next hscale =>
      set l := Arith.largestOver xs Arith.abs with hmax
      simp only [Bool.or_eq_true, not_or, Bool.not_eq_true, Bool.not_eq_false'] at hscale
      obtain ⟨hne, hl⟩ : (l == 0) = false ∧ l.isFinite = true := hscale
      have hpos : 0 < toReal l :=
        (hreaches.toReal_le hl).lt_of_ne' (toReal_ne_zero_of_beq hl hne)
      have hsum := reaches_sum_sq_div hxs hmax hl hpos
      have hroot := hsum.sqrt (isNumber_one (by decide)) zero_le_one (one_mul 1).le
      have hnorm := hroot.mul hl hpos (isNumber_toReal hl) hpos.le (mul_one _).ge
      exact hnorm.mono (h.toReal_le hl)

theorem isNaN_euclideanNorm_iff :
    (euclideanNorm xs).isNaN = true ↔ ∃ x ∈ xs, x.isNaN = true := by
  constructor
  · intro h
    by_contra hnone
    have hxs : ∀ x ∈ xs, x.isNaN = false := fun x hx =>
      Bool.eq_false_iff.2 fun hnan => hnone ⟨x, hx, hnan⟩
    rw [(reaches_euclideanNorm hxs (reaches_largestOver xs _)).isNaN_eq_false] at h
    cases h
  · intro h
    rw [euclideanNorm, if_pos (any_undefined_iff.2 h)]
    decide +kernel

theorem abs_le_euclideanNorm (hxs : ∀ x ∈ xs, x.isNaN = false) (hx : x ∈ xs) :
    Arith.abs x ≤ euclideanNorm xs :=
  (reaches_abs (hxs x hx)).le_of_forall fun _ hc =>
    reaches_euclideanNorm hxs (reaches_largestOver_of_mem hx hc)

theorem largestOver_abs_of_zeros (hxs : ∀ x ∈ xs, (x == 0) = true) :
    Arith.largestOver xs Arith.abs = 0 := by
  refine List.foldlRecOn (motive := fun y : Float => y = 0) xs _ rfl ?_
  rintro _ rfl x hx
  have hfinite := isFinite_of_beq_zero (hxs x hx)
  obtain ⟨habs, hvalue⟩ := abs_spec hfinite
  have hzero := (float_beq_iff hfinite isFinite_zero).1 (hxs x hx)
  have hlt : ¬(0 : Float) < Arith.abs x := by
    rw [float_lt_iff isFinite_zero habs, hvalue, hzero, toReal_zero, abs_zero]
    exact lt_irrefl 0
  rw [Arith.larger, if_neg hlt]
  exact if_pos (by decide +kernel)

theorem euclideanNorm_eq_zero_iff (hxs : ∀ x ∈ xs, x.isNaN = false) :
    euclideanNorm xs = 0 ↔ ∀ x ∈ xs, (x == 0) = true := by
  constructor
  · intro h x hx
    have hbelow {c : ℝ} (hc : Reaches (Arith.abs x) c) : c ≤ 0 := by
      have hnorm := reaches_euclideanNorm hxs (reaches_largestOver_of_mem hx hc)
      rw [h] at hnorm
      exact (hnorm.toReal_le isFinite_zero).trans toReal_zero.le
    rcases isFinite_or_isInf (hxs x hx) with hfinite | hinf
    · have hzero : |toReal x| ≤ 0 := hbelow (reaches_abs_of_isFinite hfinite)
      rw [float_beq_iff hfinite isFinite_zero, toReal_zero]
      exact abs_nonpos_iff.1 hzero
    · have hone : (1 : ℝ) ≤ 0 := hbelow (.inr (unpack_abs_of_isInf hinf))
      linarith
  · intro h
    rw [euclideanNorm, if_neg (not_any_undefined hxs), largestOver_abs_of_zeros h]
    exact if_pos (by decide +kernel)

end Float

/-! ## In exact arithmetic -/

section Exact

/-- The components of complex numbers, in the order of the planes of an array. -/
def planesOf {R : Type} (zs : List (Complex R)) : List R :=
  zs.map Complex.re ++ zs.map Complex.im

theorem largestOver_abs_exact (xs : List ℝ) :
    0 ≤ Arith.largestOver xs Arith.abs ∧ ∀ x ∈ xs, |x| ≤ Arith.largestOver xs Arith.abs := by
  have hfold (y : ℝ) : y ≤ xs.foldl (fun acc x => Arith.larger acc (Arith.abs x)) y
      ∧ ∀ x ∈ xs, |x| ≤ xs.foldl (fun acc x => Arith.larger acc (Arith.abs x)) y := by
    induction xs generalizing y with
    | nil => exact ⟨le_rfl, nofun⟩
    | cons x xs ih =>
        obtain ⟨hstart, hrest⟩ := ih (max y |x|)
        rw [List.foldl_cons, Arith.larger_eq_max, List.forall_mem_cons]
        exact ⟨(le_max_left y |x|).trans hstart, (le_max_right y |x|).trans hstart, hrest⟩
  exact hfold 0

theorem euclideanNorm_eq_sqrt (xs : List ℝ) : euclideanNorm xs = √(xs.map (· ^ 2)).sum := by
  obtain ⟨hnonneg, hle⟩ := largestOver_abs_exact xs
  have hdefined : ¬(xs.any fun x => !(x == x)) = true := by simp
  rw [euclideanNorm, if_neg hdefined]
  split
  · next hzero =>
      have hzero : Arith.largestOver xs Arith.abs = 0 := by
        simpa [Arith.isFinite_exact] using hzero
      have hall : ∀ x ∈ xs, x = 0 := fun x hx => abs_nonpos_iff.1 (hzero ▸ hle x hx)
      have hsum : (xs.map (· ^ 2)).sum = 0 := by
        refine List.sum_eq_zero fun y hy => ?_
        obtain ⟨x, hx, rfl⟩ := List.mem_map.1 hy
        rw [hall x hx, zero_pow two_ne_zero]
      rw [hzero, hsum, Real.sqrt_zero]
  · next hscale =>
      set l := Arith.largestOver xs Arith.abs
      have hl : l ≠ 0 := fun h => hscale (by simp [h])
      have hsum : (xs.map fun x => x / l * (x / l)).sum = (xs.map (· ^ 2)).sum / l ^ 2 := by
        rw [div_eq_mul_inv, ← List.sum_map_mul_right]
        refine congrArg List.sum (List.map_congr_left fun x _ => ?_)
        rw [← sq, div_pow, div_eq_mul_inv]
      rw [Arith.sqrt_exact, Arith.sumOver_eq_sum, hsum, Real.sqrt_div' _ (sq_nonneg l),
        Real.sqrt_sq hnonneg, mul_div_cancel₀ _ hl]

theorem sum_sq_planesOf (zs : List (Complex ℝ)) :
    ((planesOf zs).map (· ^ 2)).sum = (zs.map fun z => ‖z.toC‖ ^ 2).sum := by
  have helement (z : Complex ℝ) : ‖z.toC‖ ^ 2 = z.re ^ 2 + z.im ^ 2 := by
    rw [Complex.sq_norm, Complex.normSq_apply, sq, sq]
    rfl
  simp only [helement, List.sum_map_add, planesOf, List.map_append, List.sum_append,
    List.map_map, Function.comp_def]

theorem euclideanNorm_planesOf (zs : List (Complex ℝ)) :
    euclideanNorm (planesOf zs) = DenseMatrix.lengthOf zs := by
  rw [euclideanNorm_eq_sqrt, sum_sq_planesOf, DenseMatrix.lengthOf_eq_sqrt]

theorem euclideanNorm_reals (xs : List ℝ) :
    euclideanNorm xs = DenseMatrix.lengthOf (xs.map Complex.ofReal) := by
  rw [euclideanNorm_eq_sqrt, DenseMatrix.lengthOf_eq_sqrt, List.map_map]
  refine congrArg (√·.sum) (List.map_congr_left fun x _ => ?_)
  simp

open scoped Matrix.Norms.Frobenius in
/-- For a Hessenberg matrix the QR iteration takes the norm of all entries. -/
theorem meanNorm_eq_euclideanNorm {n : Nat} {h : DenseMatrix n n (Complex ℝ)}
    (hform : h.IsHessenberg) : meanNorm h = euclideanNorm (planesOf h.entries) / n := by
  have hlength : DenseMatrix.lengthOf h.entries = ‖h.toCMatrix‖ := by
    rw [DenseMatrix.lengthOf_eq_sqrt, DenseMatrix.entries_eq, sum_map_flatMap, sum_map_range]
    simp only [List.map_map, sum_map_range]
    rw [← Real.sqrt_sq (norm_nonneg h.toCMatrix), frobenius_sq]
    rfl
  rw [meanNorm_eq hform, euclideanNorm_planesOf, hlength]

end Exact

/-- The Euclidean norm is undefined exactly if a component is. Otherwise it is
not below any component, and zero only for zeros. Without rounding it is the
root of the sum of all squares, and so the length that the columns and rows of
eigenvectors are divided by, and `n` times the norm that the QR iteration
compares with. -/
theorem NumArray.norm_classifies (a : NumArray) :
    (a.norm.isNaN = true ↔ ∃ x ∈ a.storage.components, x.isNaN = true)
      ∧ ((∀ x ∈ a.storage.components, x.isNaN = false) →
        (∀ x ∈ a.storage.components, Arith.abs x ≤ a.norm)
          ∧ (a.norm = 0 ↔ ∀ x ∈ a.storage.components, (x == 0) = true))
      ∧ (∀ xs : List ℝ, euclideanNorm xs ^ 2 = (xs.map (· ^ 2)).sum)
      ∧ (∀ xs : List ℝ, euclideanNorm xs = DenseMatrix.lengthOf (xs.map Complex.ofReal))
      ∧ (∀ zs : List (Complex ℝ), euclideanNorm (planesOf zs) = DenseMatrix.lengthOf zs)
      ∧ ∀ (n : Nat) (h : DenseMatrix n n (Complex ℝ)), h.IsHessenberg →
        meanNorm h = euclideanNorm (planesOf h.entries) / n := by
  refine ⟨isNaN_euclideanNorm_iff, fun hdefined => ⟨?_, ?_⟩, fun xs => ?_, euclideanNorm_reals,
    euclideanNorm_planesOf, fun n h => meanNorm_eq_euclideanNorm⟩
  · exact fun x => abs_le_euclideanNorm hdefined
  · exact euclideanNorm_eq_zero_iff hdefined
  · rw [euclideanNorm_eq_sqrt, Real.sq_sqrt]
    refine List.sum_nonneg fun y hy => ?_
    obtain ⟨x, -, rfl⟩ := List.mem_map.1 hy
    exact sq_nonneg x

/-- The smallest number, beside a negative zero. -/
def NumArray.smallestBesideZero : NumArray :=
  ⟨.vector 2, ⟨.f64, #[.ofBits 1, -0], none⟩⟩

theorem NumArray.norm_classifies_smallestBesideZero :
    (∀ x ∈ smallestBesideZero.storage.components, x.isNaN = false) ∧
      Arith.abs (.ofBits 1) ≤ smallestBesideZero.norm ∧ smallestBesideZero.norm ≠ 0 := by
  have hdefined : ∀ x ∈ smallestBesideZero.storage.components, x.isNaN = false := by
    decide +kernel
  have hsmallest : Float.ofBits 1 ∈ smallestBesideZero.storage.components :=
    List.mem_append_left _ List.mem_cons_self
  obtain ⟨-, hnorm, -⟩ := norm_classifies smallestBesideZero
  obtain ⟨hle, hzero⟩ := hnorm hdefined
  refine ⟨hdefined, hle _ hsmallest, fun h => ?_⟩
  exact absurd (hzero.1 h _ hsmallest) (by decide +kernel)

end DenseNumeric
