import Mathlib
import DenseNumeric.Proofs.FloatReading

/-!
# Lengths in double precision

The lengths that the algorithms compare and divide by, as rounded lengths of
complex numbers and matrices. `Complex.exact` and `DenseMatrix.exact` take a
double for the real number that it stands for.

A length that is finite bounds every part that went into it. And a length is
finite, and not much too long, if what it measures is not too large: a fold of
hypotenuses is at most twice the true length, as each step at most doubles what
it adds to the square.
-/

namespace DenseNumeric

open Binary

/-! ## The exact reading of doubles -/

namespace Complex

/-- The complex number that two doubles stand for, as two reals. -/
noncomputable def exact (z : Complex Float) : Complex ℝ := ⟨toReal z.re, toReal z.im⟩

theorem isFinite_iff {z : Complex Float} :
    z.isFinite = true ↔ z.re.isFinite = true ∧ z.im.isFinite = true :=
  Bool.and_eq_true_iff

end Complex

/-! ## Parts of what has a finite length -/

/-- `x` is finite, and at most `bound` in size. -/
structure Binary.Bounded (x : Float) (bound : ℝ) : Prop where
  isFinite : x.isFinite = true
  abs_le : |toReal x| ≤ bound

theorem Binary.Bounded.mono {x : Float} {b c : ℝ} (h : Bounded x b) (hbc : b ≤ c) : Bounded x c :=
  ⟨h.isFinite, h.abs_le.trans hbc⟩

/-- The parts of `z` are finite, and at most `bound` in size. -/
structure Complex.IsWithin (z : Complex Float) (bound : ℝ) : Prop where
  re : Bounded z.re bound
  im : Bounded z.im bound

theorem Complex.IsWithin.mono {z : Complex Float} {b c : ℝ} (h : z.IsWithin b) (hbc : b ≤ c) :
    z.IsWithin c :=
  ⟨h.re.mono hbc, h.im.mono hbc⟩

theorem Complex.IsWithin.zero {b : ℝ} (hb : 0 ≤ b) : (0 : Complex Float).IsWithin b := by
  have hpart : Bounded 0 b := by
    refine ⟨isFinite_zero, ?_⟩
    rwa [toReal_zero, abs_zero]
  exact ⟨hpart, hpart⟩

theorem Complex.isWithin_magnitude {z : Complex Float} (h : z.magnitude.isFinite = true) :
    z.IsWithin (toReal z.magnitude) := by
  obtain ⟨hre, him, hre', him'⟩ := abs_le_hypot h
  exact ⟨⟨hre, hre'⟩, ⟨him, him'⟩⟩

theorem isWithin_foldl_hypot {zs : List (Complex Float)} {x : Float}
    (h : (zs.foldl (fun acc z => Arith.hypot acc z.magnitude) x).isFinite = true) :
    x.isFinite = true ∧
      |toReal x| ≤ |toReal (zs.foldl (fun acc z => Arith.hypot acc z.magnitude) x)| ∧
      ∀ z ∈ zs, z.IsWithin |toReal (zs.foldl (fun acc z => Arith.hypot acc z.magnitude) x)| := by
  induction zs generalizing x with
  | nil => exact ⟨h, le_rfl, fun z hz => absurd hz List.not_mem_nil⟩
  | cons z zs ih =>
      obtain ⟨hstep, hle, hrest⟩ := ih h
      obtain ⟨hx, hz, hx', hz'⟩ := abs_le_hypot hstep
      have hstep' := (le_abs_self _).trans hle
      refine ⟨hx, hx'.trans hstep', fun w hw => ?_⟩
      rcases List.mem_cons.1 hw with rfl | hw
      · exact (Complex.isWithin_magnitude hz).mono ((le_abs_self _).trans (hz'.trans hstep'))
      · exact hrest w hw

/-- A finite length bounds the parts of all that was measured. -/
theorem DenseMatrix.isWithin_lengthOf {zs : List (Complex Float)}
    (h : (lengthOf zs).isFinite = true) {z : Complex Float} (hz : z ∈ zs) :
    z.IsWithin |toReal (lengthOf zs)| :=
  (isWithin_foldl_hypot h).2.2 z hz

/-! ## Lengths that are not too large -/

namespace Complex

variable {z : Complex Float}

theorem norm_toC_exact (z : Complex Float) :
    ‖z.exact.toC‖ = √(toReal z.re ^ 2 + toReal z.im ^ 2) := by
  rw [← magnitude_eq_norm, magnitude, Arith.hypot_exact]
  rfl

theorem magnitude_roundsTo (hz : z.isFinite = true) (hsize : ‖z.exact.toC‖ < safeBound) :
    RoundsTo ‖z.exact.toC‖ z.magnitude := by
  obtain ⟨hre, him⟩ := isFinite_iff.1 hz
  rw [norm_toC_exact] at hsize ⊢
  refine (rounds_hypot hre him).roundsTo ?_
  rwa [abs_of_nonneg (Real.sqrt_nonneg _)]

/-- The square of a rounded length, too large by half at most. -/
theorem sq_magnitude_le (hz : z.isFinite = true) (hsize : ‖z.exact.toC‖ < safeBound) :
    toReal z.magnitude ^ 2 ≤ 5 / 2 * ‖z.exact.toC‖ ^ 2 := by
  obtain ⟨hre, him⟩ := isFinite_iff.1 hz
  have hround := (magnitude_roundsTo hz hsize).isNearest
  rw [norm_toC_exact] at hround ⊢
  rw [Real.sq_sqrt (by positivity)]
  rw [← sq_abs (toReal z.re), ← sq_abs (toReal z.im)] at hround ⊢
  rcases le_total |toReal z.im| |toReal z.re| with hle | hle
  · have := hround.sq_hypot_le (isNumber_toReal hre).abs (abs_nonneg _)
    nlinarith [abs_nonneg (toReal z.im), abs_nonneg (toReal z.re)]
  · rw [add_comm] at hround
    have := hround.sq_hypot_le (isNumber_toReal him).abs (abs_nonneg _)
    nlinarith [abs_nonneg (toReal z.im), abs_nonneg (toReal z.re)]

theorem taxicab_roundsTo (hz : z.isFinite = true)
    (hsize : |toReal z.re| + |toReal z.im| < safeBound) :
    RoundsTo (|toReal z.re| + |toReal z.im|) z.taxicab := by
  obtain ⟨hre, him⟩ := isFinite_iff.1 hz
  obtain ⟨hre', hreal⟩ := abs_spec hre
  obtain ⟨him', himag⟩ := abs_spec him
  have hround := rounds_add hre' him'
  rw [hreal, himag] at hround
  refine hround.roundsTo ?_
  rwa [abs_of_nonneg (by positivity)]

theorem taxicab_le (hz : z.isFinite = true) (hsize : |toReal z.re| + |toReal z.im| < safeBound) :
    toReal z.taxicab ≤ 4 / 3 * (|toReal z.re| + |toReal z.im|) := by
  obtain ⟨hre, him⟩ := isFinite_iff.1 hz
  exact (taxicab_roundsTo hz hsize).isNearest.add_le (isNumber_toReal hre).abs
    (isNumber_toReal him).abs (abs_nonneg _) (abs_nonneg _)

end Complex

/-- The fold that measures a list: each entry adds at most ten times its
square to the square of the result. -/
theorem sq_foldl_hypot_le {zs : List (Complex Float)} (hzs : ∀ z ∈ zs, z.isFinite = true)
    {x : Float} (hx : x.isFinite = true) (hx0 : 0 ≤ toReal x)
    (hsize : toReal x ^ 2 + 10 * (zs.map fun z => ‖z.exact.toC‖ ^ 2).sum < safeBound ^ 2) :
    let length := zs.foldl (fun acc z => Arith.hypot acc z.magnitude) x
    length.isFinite = true ∧ 0 ≤ toReal length ∧
      toReal length ^ 2 ≤ toReal x ^ 2 + 10 * (zs.map fun z => ‖z.exact.toC‖ ^ 2).sum := by
  induction zs generalizing x with
  | nil => exact ⟨hx, hx0, by simp⟩
  | cons z zs ih =>
      have hrest : 0 ≤ (zs.map fun z => ‖z.exact.toC‖ ^ 2).sum :=
        List.sum_nonneg fun y hy => by
          obtain ⟨w, -, rfl⟩ := List.mem_map.1 hy
          positivity
      rw [List.map_cons, List.sum_cons] at hsize ⊢
      have hz := hzs z List.mem_cons_self
      have hsquare := sq_nonneg ‖z.exact.toC‖
      have hzsize : ‖z.exact.toC‖ < safeBound := by
        refine lt_of_pow_lt_pow_left₀ 2 safeBound_pos.le ?_
        linarith [sq_nonneg (toReal x)]
      have hmag := (Complex.magnitude_roundsTo hz hzsize).isFinite
      have hmag' := Complex.sq_magnitude_le hz hzsize
      have hstep : RoundsTo √(toReal x ^ 2 + toReal z.magnitude ^ 2)
          (Arith.hypot x z.magnitude) := by
        refine (rounds_hypot hx hmag).roundsTo ?_
        rw [abs_of_nonneg (Real.sqrt_nonneg _)]
        refine lt_of_pow_lt_pow_left₀ 2 safeBound_pos.le ?_
        rw [Real.sq_sqrt (by positivity)]
        linarith
      have hsq := hstep.isNearest.sq_hypot_le (isNumber_toReal hx) hx0
      obtain ⟨hfinite, hnonneg, hle⟩ := ih (fun w hw => hzs w (List.mem_cons_of_mem z hw))
        hstep.isFinite (hstep.isNearest.nonneg (Real.sqrt_nonneg _)) (by linarith)
      exact ⟨hfinite, hnonneg, by rw [List.foldl_cons]; linarith⟩

namespace DenseMatrix

/-- A rounded length, which is less than four times the true one. -/
theorem lengthOf_le {zs : List (Complex Float)} (hzs : ∀ z ∈ zs, z.isFinite = true) {s : ℝ}
    (hs : 0 ≤ s) (hsum : (zs.map fun z => ‖z.exact.toC‖ ^ 2).sum ≤ s ^ 2)
    (hsize : 4 * s < safeBound) :
    (lengthOf zs).isFinite = true ∧ 0 ≤ toReal (lengthOf zs) ∧
      toReal (lengthOf zs) ≤ 32 / 9 * s := by
  have hstart : toReal 0 ^ 2 + 10 * (zs.map fun z => ‖z.exact.toC‖ ^ 2).sum < safeBound ^ 2 := by
    rw [toReal_zero]
    nlinarith
  obtain ⟨hfinite, hnonneg, hsq⟩ :=
    sq_foldl_hypot_le hzs isFinite_zero toReal_zero.ge hstart
  rw [toReal_zero] at hsq
  refine ⟨hfinite, hnonneg, ?_⟩
  refine (abs_le_of_sq_le_sq' (hsq.trans ?_) (by positivity)).2
  nlinarith [sq_nonneg s]

variable {n : Nat}

/-- The matrix that a working matrix of doubles stands for. -/
noncomputable def exact (a : DenseMatrix n n (Complex Float)) : DenseMatrix n n (Complex ℝ) :=
  .ofFn fun i j => (a i j).exact

/-- Every part of every entry is finite. -/
def IsFinite (a : DenseMatrix n n (Complex Float)) : Prop :=
  ∀ i j, i < n → j < n → (a i j).isFinite = true

theorem exact_apply (a : DenseMatrix n n (Complex Float)) {i j : Nat} (hi : i < n) (hj : j < n) :
    a.exact i j = (a i j).exact := by
  rw [exact, apply_of_lt _ hi hj]

end DenseMatrix

end DenseNumeric
