import DenseNumeric.Proofs.SchurForm

/-!
# Scaled matrices

In exact arithmetic the way to a triangular form commutes with a positive
factor. Lengths, norms and shifts are multiplied by it; a reflection, a
rotation, and every comparison that a run makes are ratios, and stay what they
are. So a scaled matrix takes the same deflations and the same sweeps, has the
same basis and the same records, and only its triangular form is scaled.

`scale` is defined on matrices, on matrices with a basis and on the states of
a run; for each step there is one lemma that says how it goes together with
`scale`, and a run follows by induction on its steps. A threshold that did not
scale along, anywhere, would break one of these lemmas.
-/

namespace DenseNumeric

variable {n : Nat} {s : ℝ}

/-! ## Complex numbers -/

namespace Complex

theorem scale_zero_left (s : ℝ) : (0 : Complex ℝ).scale s = 0 :=
  toC_injective (by simp)

theorem add_scale (z w : Complex ℝ) : z.scale s + w.scale s = (z + w).scale s :=
  toC_injective (by simp [add_mul])

theorem sub_scale (z w : Complex ℝ) : z.scale s - w.scale s = (z - w).scale s :=
  toC_injective (by simp [sub_mul])

theorem mul_scale (z w : Complex ℝ) : z * w.scale s = (z * w).scale s :=
  toC_injective (by simp [mul_assoc])

theorem scale_mul (z w : Complex ℝ) : z.scale s * w = (z * w).scale s :=
  toC_injective (by simp [mul_right_comm])

theorem scale_scale (z : Complex ℝ) (x y : ℝ) : (z.scale x).scale y = z.scale (x * y) :=
  toC_injective (by simp [mul_assoc])

variable (hs : 0 < s)
include hs

theorem magnitude_scale (z : Complex ℝ) : (z.scale s).magnitude = z.magnitude * s := by
  rw [magnitude_eq_norm, magnitude_eq_norm, toC_scale, norm_mul, Complex.norm_real,
    Real.norm_of_nonneg hs.le]

theorem taxicab_scale (z : Complex ℝ) : (z.scale s).taxicab = z.taxicab * s := by
  rw [taxicab_eq, taxicab_eq, scale, abs_mul, abs_mul, abs_of_pos hs, add_mul]

/-- A ratio stays what it is. -/
theorem divReal_scale (z : Complex ℝ) (x : ℝ) : (z.scale s).divReal (x * s) = z.divReal x := by
  have hs' : (s : ℂ) ≠ 0 := by exact_mod_cast hs.ne'
  refine toC_injective ?_
  rw [toC_divReal, toC_divReal, toC_scale, Complex.ofReal_mul, mul_div_mul_right _ _ hs']

end Complex

namespace Arith

variable (hs : 0 < s)
include hs

theorem hypot_mul (x y : ℝ) : hypot (x * s) (y * s) = hypot x y * s := by
  rw [hypot_exact, hypot_exact, mul_pow, mul_pow, ← add_mul, Real.sqrt_mul' _ (sq_nonneg s),
    Real.sqrt_sq hs.le]

theorem larger_mul (x y : ℝ) : larger (x * s) (y * s) = larger x y * s := by
  rw [larger_eq_max, larger_eq_max, max_mul_of_nonneg _ _ hs.le]

end Arith

/-! ## Scaled matrices -/

/-- Every entry multiplied by a number. -/
noncomputable def DenseMatrix.scale (a : DenseMatrix n n (Complex ℝ)) (s : ℝ) :
    DenseMatrix n n (Complex ℝ) :=
  .ofFn fun i j => (a i j).scale s

/-- The matrix is scaled; the basis it is expressed in is not. -/
noncomputable def Similar.scale (p : Similar n ℝ) (s : ℝ) : Similar n ℝ :=
  { p with matrix := p.matrix.scale s }

/-- The same block, counts and records, with a scaled matrix. -/
noncomputable def QrState.scale (t : QrState n ℝ) (s : ℝ) : QrState n ℝ :=
  { t with current := t.current.scale s }

noncomputable def Reduction.scale (r : Reduction n ℝ) (s : ℝ) : Reduction n ℝ :=
  { r with matrix := r.matrix.scale s }

namespace DenseMatrix

/-- What is read outside a matrix is zero, which scales as well. -/
theorem get_scale (a : DenseMatrix n n (Complex ℝ)) (s : ℝ) (i j : Nat) :
    (a.scale s) i j = (a i j).scale s := by
  rw [scale, get_ofFn]
  split
  · rfl
  · next h =>
      rw [get, dif_neg h]
      exact (Complex.scale_zero_left s).symm

theorem ofFn_scale {f g : Nat → Nat → Complex ℝ}
    (h : ∀ i j, i < n → j < n → f i j = (g i j).scale s) :
    (ofFn f : DenseMatrix n n (Complex ℝ)) = (ofFn g : DenseMatrix n n (Complex ℝ)).scale s :=
  ofFn_congr fun i j hi hj => by rw [h i j hi hj, apply_of_lt g hi hj]

theorem set_scale (a : DenseMatrix n n (Complex ℝ)) (i j : Nat) (x : Complex ℝ) :
    (a.scale s).set i j (x.scale s) = (a.set i j x).scale s :=
  ofFn_scale fun i' j' _ _ => by rw [get_scale, apply_ite (Complex.scale · s)]

theorem set_zero_scale (a : DenseMatrix n n (Complex ℝ)) (i j : Nat) :
    (a.scale s).set i j 0 = (a.set i j 0).scale s := by
  rw [← set_scale, Complex.scale_zero_left]

theorem diagonal_scale (a : DenseMatrix n n (Complex ℝ)) :
    (a.scale s).diagonal = a.diagonal.map (·.scale s) := by
  simp only [diagonal, List.map_map, Function.comp_def, get_scale]

end DenseMatrix

/-! ## The reduction -/

namespace Reflection

theorem sum_scale (v : Reflection ℝ) (f : Nat → Complex ℝ) :
    (v.sum fun k => (f k).scale s) = (v.sum f).scale s :=
  List.foldl_hom (Complex.scale · s) fun z k => Complex.add_scale z (f k)

theorem applyRight_scale (v : Reflection ℝ) (a : DenseMatrix n n (Complex ℝ)) :
    v.applyRight (a.scale s) = (v.applyRight a).scale s := by
  refine DenseMatrix.ext_of_get fun j k hj hk => ?_
  simp only [DenseMatrix.get_scale, applyRight_apply _ _ hj hk, Complex.mul_scale, sum_scale,
    Complex.scale_mul, Complex.sub_scale, apply_ite (Complex.scale · s)]

theorem applyLeft_scale (v : Reflection ℝ) (cols : Nat) (a : DenseMatrix n n (Complex ℝ)) :
    v.applyLeft cols (a.scale s) = (v.applyLeft cols a).scale s := by
  refine DenseMatrix.ext_of_get fun k j hk hj => ?_
  simp only [DenseMatrix.get_scale, applyLeft_apply _ _ _ hk hj, Complex.mul_scale, sum_scale,
    Complex.scale_mul, Complex.sub_scale, apply_ite (Complex.scale · s)]

/-- A scaled row has the reflection of the row, which moves it to a scaled
image: it is divided by its taxicab length before anything else. -/
theorem ofRow?_scale (hs : 0 < s) (order : Nat) (row : Nat → Complex ℝ) :
    (ofRow? order fun k => (row k).scale s)
      = (ofRow? order row).map fun (v, x) => (v, x.scale s) := by
  have hlength : (Arith.sumOver (List.range order) fun k => ((row k).scale s).taxicab)
      = (Arith.sumOver (List.range order) fun k => (row k).taxicab) * s := by
    simp only [sumOver_range, Complex.taxicab_scale hs, Finset.sum_mul]
  unfold ofRow?
  simp only [hlength, Arith.isFinite_exact]
  generalize (Arith.sumOver (List.range order) fun k => (row k).taxicab) = c
  have hzero : (c * s == 0) = (c == 0) := by simp [hs.ne']
  have hscaled (k : Nat) : ((row k).scale s).scale (1 / (c * s)) = (row k).scale (1 / c) := by
    rw [Complex.scale_scale, mul_one_div, mul_comm c, ← div_div, div_self hs.ne']
  have himage (g : ℝ) : (⟨-g * (c * s), 0⟩ : Complex ℝ) = (⟨-g * c, 0⟩ : Complex ℝ).scale s := by
    rw [Complex.scale, mul_assoc, zero_mul]
  simp only [hzero, hscaled, himage, Complex.scale_mul]
  split
  · rfl
  · rw [Option.map_some, apply_ite (Complex.scale · s)]

end Reflection

namespace Reduction

theorem withRow_scale (a : DenseMatrix n n (Complex ℝ)) (i : Nat) (x : Complex ℝ) :
    withRow (a.scale s) i (x.scale s) = (withRow a i x).scale s := by
  refine DenseMatrix.ofFn_scale fun j k _ _ => ?_
  rw [DenseMatrix.get_scale, apply_ite (Complex.scale · s), apply_ite (Complex.scale · s),
    Complex.scale_zero_left]

theorem clearRow_scale (hs : 0 < s) (r : Reduction n ℝ) (i : Nat) :
    (r.scale s).clearRow i = (r.clearRow i).scale s := by
  have hrow : Reflection.ofRow? i ((r.scale s).matrix i)
      = (Reflection.ofRow? i (r.matrix i)).map fun (v, x) => (v, x.scale s) := by
    rw [← Reflection.ofRow?_scale hs]
    exact congrArg _ (funext (r.matrix.get_scale s i))
  cases h : Reflection.ofRow? i (r.matrix i) with
  | none =>
      rw [h] at hrow
      have hcleared := withRow_scale (s := s) r.matrix i 0
      rw [Complex.scale_zero_left] at hcleared
      rw [clearRow_of_none hrow, clearRow_of_none h]
      exact congrArg (Reduction.mk · r.reflections) hcleared
  | some vx =>
      obtain ⟨v, x⟩ := vx
      rw [h] at hrow
      have hreflected : v.applyLeft n (v.applyRight (withRow (r.matrix.scale s) i (x.scale s)))
          = (v.applyLeft n (v.applyRight (withRow r.matrix i x))).scale s := by
        rw [withRow_scale, Reflection.applyRight_scale, Reflection.applyLeft_scale]
      rw [clearRow_of_some hrow, clearRow_of_some h]
      exact congrArg (Reduction.mk · (v :: r.reflections)) hreflected

theorem ofMatrix_scale (hs : 0 < s) (a : DenseMatrix n n (Complex ℝ)) :
    ofMatrix (a.scale s) = (ofMatrix a).scale s := by
  rw [ofMatrix, ofMatrix]
  show List.foldl clearRow (scale ⟨a, []⟩ s) _ = _
  exact List.foldl_hom (scale · s) (clearRow_scale hs)

end Reduction

/-- The basis comes from the reflections alone. -/
theorem DenseMatrix.hessenberg_scale (hs : 0 < s) (a : DenseMatrix n n (Complex ℝ))
    (withBasis : Bool) : (a.scale s).hessenberg withBasis = (a.hessenberg withBasis).scale s := by
  rw [hessenberg, Reduction.ofMatrix_scale hs]
  rfl

/-! ## The shift -/

theorem largestOver_scale (hs : 0 < s) (zs : List (Complex ℝ)) :
    Arith.largestOver (zs.map (·.scale s)) Complex.taxicab
      = Arith.largestOver zs Complex.taxicab * s := by
  have hstep (x : ℝ) (z : Complex ℝ) :
      Arith.larger (x * s) (z.scale s).taxicab = Arith.larger x z.taxicab * s := by
    rw [Complex.taxicab_scale hs, Arith.larger_mul hs]
  unfold Arith.largestOver
  rw [List.foldl_map]
  calc zs.foldl (fun x z => Arith.larger x (z.scale s).taxicab) 0
      = zs.foldl (fun x z => Arith.larger x (z.scale s).taxicab) (0 * s) := by rw [zero_mul]
    _ = _ := List.foldl_hom (· * s) hstep

theorem wilkinsonShift_scale (hs : 0 < s) (a : DenseMatrix n n (Complex ℝ)) (high : Nat) :
    wilkinsonShift (a.scale s) high = (wilkinsonShift a high).scale s := by
  unfold wilkinsonShift
  simp only [DenseMatrix.get_scale]
  have hscale (p b c d : Complex ℝ) :
      Arith.largestOver [p.scale s, b.scale s, c.scale s, d.scale s] Complex.taxicab
        = Arith.largestOver [p, b, c, d] Complex.taxicab * s :=
    largestOver_scale hs [p, b, c, d]
  have hzero (x : ℝ) : (x * s == 0) = (x == 0) := by simp [hs.ne']
  simp only [hscale, hzero, Arith.isFinite_exact, Complex.divReal_scale hs, ← Complex.scale_scale]
  split <;> rfl

/-! ## Rotations -/

namespace Rotation

/-- The same turn, made from a longer pair. -/
noncomputable def scale (g : Rotation ℝ) (s : ℝ) : Rotation ℝ := { g with length := g.length * s }

theorem ofPair_scale (hs : 0 < s) (x y : Complex ℝ) :
    ofPair (x.scale s) (y.scale s) = (ofPair x y).scale s := by
  have hlength : Arith.hypot (x.scale s).magnitude (y.scale s).magnitude
      = Arith.hypot x.magnitude y.magnitude * s := by
    rw [Complex.magnitude_scale hs, Complex.magnitude_scale hs, Arith.hypot_mul hs]
  have hzero (z : ℝ) : (z * s == 0) = (z == 0) := by simp [hs.ne']
  simp only [ofPair, hlength, hzero, Complex.divReal_scale hs]
  split
  · rw [scale, zero_mul]
  · rfl

theorem rotateRows_scale (g : Rotation ℝ) (r first : Nat) (a : DenseMatrix n n (Complex ℝ)) :
    g.rotateRows r first (a.scale s) = (g.rotateRows r first a).scale s := by
  refine DenseMatrix.ext_of_get fun i k hi hk => ?_
  simp only [DenseMatrix.get_scale, rotateRows_apply _ _ _ _ hi hk, Complex.mul_scale,
    Complex.add_scale, Complex.sub_scale, apply_ite (Complex.scale · s)]

theorem rotateCols_scale (g : Rotation ℝ) (r last : Nat) (a : DenseMatrix n n (Complex ℝ)) :
    g.rotateCols r last (a.scale s) = (g.rotateCols r last a).scale s := by
  refine DenseMatrix.ext_of_get fun k j hk hj => ?_
  simp only [DenseMatrix.get_scale, rotateCols_apply _ _ _ _ hk hj, Complex.mul_scale,
    Complex.add_scale, Complex.sub_scale, apply_ite (Complex.scale · s)]

end Rotation

namespace Similar

theorem rotate_scale (p : Similar n ℝ) (g : Rotation ℝ) (r high : Nat) :
    (p.scale s).rotate (g.scale s) r high = (p.rotate g r high).scale s := by
  have hmatrix : g.rotateCols r (min high (r + 3)) (g.rotateRows r r (p.matrix.scale s))
      = (g.rotateCols r (min high (r + 3)) (g.rotateRows r r p.matrix)).scale s := by
    rw [Rotation.rotateRows_scale, Rotation.rotateCols_scale]
  exact congrArg (Similar.mk · (p.basis.map (g.rotateCols r n))) hmatrix

theorem chase_scale (hs : 0 < s) (high j : Nat) (p : Similar n ℝ) :
    (p.scale s).chase high j = (p.chase high j).scale s := by
  have hflat (g : Rotation ℝ) : flatten (g.scale s) (p.scale s) j = (flatten g p j).scale s := by
    have hlength : (⟨g.length * s, 0⟩ : Complex ℝ) = (⟨g.length, 0⟩ : Complex ℝ).scale s := by
      rw [Complex.scale, zero_mul]
    have hmatrix : ((p.matrix.scale s).set (j + 1) j ⟨g.length * s, 0⟩).set (j + 2) j 0
        = ((p.matrix.set (j + 1) j ⟨g.length, 0⟩).set (j + 2) j 0).scale s := by
      rw [hlength, DenseMatrix.set_scale, DenseMatrix.set_zero_scale]
    exact congrArg (Similar.mk · p.basis) hmatrix
  have hpair : Rotation.ofPair ((p.scale s).matrix (j + 1) j) ((p.scale s).matrix (j + 2) j)
      = (Rotation.ofPair (p.matrix (j + 1) j) (p.matrix (j + 2) j)).scale s := by
    rw [← Rotation.ofPair_scale hs, ← DenseMatrix.get_scale, ← DenseMatrix.get_scale]
    rfl
  rw [chase_eq, chase_eq]
  dsimp only
  rw [hpair, hflat, rotate_scale]

theorem sweep_scale (hs : 0 < s) (p : Similar n ℝ) (low high : Nat) (shift : Complex ℝ) :
    (p.scale s).sweep low high (shift.scale s) = (p.sweep low high shift).scale s := by
  have hpair : Rotation.ofPair ((p.scale s).matrix low low - shift.scale s)
        ((p.scale s).matrix (low + 1) low)
      = (Rotation.ofPair (p.matrix low low - shift) (p.matrix (low + 1) low)).scale s := by
    rw [← Rotation.ofPair_scale hs, ← Complex.sub_scale, ← DenseMatrix.get_scale,
      ← DenseMatrix.get_scale]
    rfl
  rw [sweep, sweep, hpair, rotate_scale]
  exact List.foldl_hom (scale · s) fun p j => chase_scale hs high j p

end Similar

/-! ## The run -/

namespace QrState

theorem shift_eq (t : QrState n ℝ) (norm : ℝ) :
    t.shift norm =
      if t.iterations % 30 = 10 then t.current.matrix (t.high - 1) (t.high - 2)
      else if t.iterations % 30 = 20 then
        .ofReal (t.current.matrix (t.high - 1) (t.high - 2)).magnitude
      else if t.iterations % 30 = 29 then .ofReal norm
      else wilkinsonShift t.current.matrix t.high := by
  unfold shift
  split
  · next h => rw [if_pos h]
  · next h => rw [if_neg (by omega), if_pos h]
  · next h => rw [if_neg (by omega), if_neg (by omega), if_pos h]
  · next h h' h'' => rw [if_neg h, if_neg h', if_neg h'']

/-- All four shifts are multiplied. -/
theorem shift_scale (hs : 0 < s) (t : QrState n ℝ) (norm : ℝ) :
    (t.scale s).shift (norm * s) = (t.shift norm).scale s := by
  have hentry (i j : Nat) : (t.scale s).current.matrix i j = (t.current.matrix i j).scale s :=
    t.current.matrix.get_scale s i j
  have hreal (x : ℝ) : Complex.ofReal (x * s) = (Complex.ofReal x).scale s := by
    rw [Complex.ofReal, Complex.ofReal, Complex.scale, zero_mul]
  have hwilkinson : wilkinsonShift (t.scale s).current.matrix t.high
      = (wilkinsonShift t.current.matrix t.high).scale s := wilkinsonShift_scale hs _ _
  have hiterations : (t.scale s).iterations = t.iterations := rfl
  have hhigh : (t.scale s).high = t.high := rfl
  simp only [shift_eq, hentry, Complex.magnitude_scale hs, hreal, hwilkinson, hiterations, hhigh,
    apply_ite (Complex.scale · s)]

theorem negligible?_scale (hs : 0 < s) (t : QrState n ℝ) (norm : ℝ) :
    (t.scale s).negligible? (norm * s) = t.negligible? norm := by
  have hentry (i j : Nat) : (t.scale s).current.matrix i j = (t.current.matrix i j).scale s :=
    t.current.matrix.get_scale s i j
  have hlt (x y : ℝ) : x * s < y * s ↔ x < y := mul_lt_mul_iff_left₀ hs
  have hweight (c : Prop) [Decidable c] (x y : ℝ) :
      (if c then x * s else y * s) = (if c then x else y) * s := (ite_mul ..).symm
  unfold negligible?
  simp only [hentry, Complex.taxicab_scale hs, Complex.magnitude_scale hs, ← add_mul, ← mul_assoc,
    hlt, hweight]
  rfl

theorem step_scale (hs : 0 < s) (t : QrState n ℝ) (norm : ℝ) :
    (t.scale s).step (norm * s) = (t.step norm).scale s := by
  rw [step, step, negligible?_scale hs]
  cases t.negligible? norm with
  | some k =>
      exact congrArg (fun m => { t.deflate k with current := ⟨m, t.current.basis⟩ })
        (t.current.matrix.set_zero_scale (k + 1) k)
  | none =>
      have hswept : (t.current.scale s).sweep t.low t.high ((t.scale s).shift (norm * s))
          = (t.current.sweep t.low t.high (t.shift norm)).scale s := by
        rw [shift_scale hs, Similar.sweep_scale hs]
      exact congrArg (fun p => { t.sweep norm with current := p }) hswept

theorem run_scale (hs : 0 < s) (norm : ℝ) (limit : Nat) (t : QrState n ℝ) :
    run (norm * s) limit (t.scale s) = (run norm limit t).scale s := by
  induction t using run.induct norm limit with
  | case1 t h => rw [run_of_lt h, run_of_lt (s := t.scale s) h]
  | case2 t h ih =>
      have hhigh : 2 ≤ t.high := by omega
      have hits : t.iterations ≤ limit := by omega
      rw [run_of_le hhigh hits, run_of_le (s := t.scale s) hhigh hits, step_scale hs, ih]

theorem outcome_scale (t : QrState n ℝ) :
    (t.scale s).outcome = t.outcome.map (·.map (·.scale s)) := by
  by_cases h : t.high < 2
  · rw [outcome, outcome, if_pos h, if_pos (show (t.scale s).high < 2 from h)]
    rfl
  · rw [outcome, outcome, if_neg h, if_neg (show ¬(t.scale s).high < 2 from h)]
    rfl

end QrState

theorem meanNorm_scale (hs : 0 < s) (a : DenseMatrix n n (Complex ℝ)) :
    meanNorm (a.scale s) = meanNorm a * s := by
  have hlength (zs : List (Complex ℝ)) :
      DenseMatrix.lengthOf (zs.map (·.scale s)) = DenseMatrix.lengthOf zs * s := by
    have hstep (x : ℝ) (z : Complex ℝ) :
        Arith.hypot (x * s) (z.scale s).magnitude = Arith.hypot x z.magnitude * s := by
      rw [Complex.magnitude_scale hs, Arith.hypot_mul hs]
    unfold DenseMatrix.lengthOf
    rw [List.foldl_map]
    calc zs.foldl (fun x z => Arith.hypot x (z.scale s).magnitude) 0
        = zs.foldl (fun x z => Arith.hypot x (z.scale s).magnitude) (0 * s) := by rw [zero_mul]
      _ = _ := List.foldl_hom (· * s) hstep
  unfold meanNorm
  dsimp only
  rw [div_mul_eq_mul_div, ← hlength, List.map_flatMap]
  simp only [List.map_map, Function.comp_def, DenseMatrix.get_scale]

/-! ## Triangular forms and eigenvalues -/

theorem Similar.triangularize_scale (hs : 0 < s) (p : Similar n ℝ) (limit : Nat) :
    (p.scale s).triangularize limit = (p.triangularize limit).map (·.map (·.scale s)) := by
  have hnorm : meanNorm (p.scale s).matrix = meanNorm p.matrix * s := meanNorm_scale hs p.matrix
  have hzero : (meanNorm p.matrix * s == 0) = (meanNorm p.matrix == 0) := by simp [hs.ne']
  rw [triangularize, triangularize, hnorm, hzero]
  split
  · rfl
  · rw [← QrState.outcome_scale, ← QrState.run_scale hs]
    rfl

namespace DenseMatrix

variable (hs : 0 < s) (a : DenseMatrix n n (Complex ℝ))
include hs

theorem schur_scale (limit : Nat) :
    (a.scale s).schur limit = (a.schur limit).map (·.map (·.scale s)) := by
  rw [schur, schur, hessenberg_scale hs, Similar.triangularize_scale hs]

theorem eigensystem_scale (limit : Nat) :
    (a.scale s).eigensystem ⟨false, false, limit⟩
      = (a.eigensystem ⟨false, false, limit⟩).map (·.map fun e =>
          { e with values := e.values.map (·.scale s) }) := by
  by_cases hn : n = 1
  · rw [eigensystem, eigensystem, if_pos hn, if_pos hn, diagonal_scale]
    rfl
  · have hof (p : Similar n ℝ) : eigensystemOf (p.scale s) ⟨false, false, limit⟩
        = { eigensystemOf p ⟨false, false, limit⟩ with
            values := (eigensystemOf p ⟨false, false, limit⟩).values.map (·.scale s) } := by
      have hvalues : (p.scale s).matrix.diagonal = p.matrix.diagonal.map (·.scale s) :=
        p.matrix.diagonal_scale
      simp only [eigensystemOf, hvalues, Bool.false_eq_true, if_false]
    rw [eigensystem, eigensystem, if_neg hn, if_neg hn]
    dsimp only
    rw [hessenberg_scale hs, Similar.triangularize_scale hs]
    generalize (a.hessenberg (false || false)).triangularize limit = l
    obtain ⟨records, value⟩ := l
    cases value with
    | error e => rfl
    | ok p => exact congrArg (fun e => (⟨records ++ _, .ok e⟩ : Logged ℝ (Except Error _))) (hof p)

/-- A positive factor goes through the whole way to the eigenvalues. The
Hessenberg form is scaled, in the same basis. The runs from there are in step:
they come to the same block, counts and records, and to a scaled matrix in the
same basis, or to the same error. So triangular forms are scaled, and
eigenvalues, in their order. -/
theorem scale_equivariant (limit : Nat) :
    (∀ withBasis, (a.scale s).hessenberg withBasis = (a.hessenberg withBasis).scale s) ∧
    (∀ withBasis,
      let p := a.hessenberg withBasis
      let p' := (a.scale s).hessenberg withBasis
      QrState.run (meanNorm p'.matrix) limit ⟨p', 0, n, 0, 0, []⟩
          = (QrState.run (meanNorm p.matrix) limit ⟨p, 0, n, 0, 0, []⟩).scale s ∧
        p'.triangularize limit = (p.triangularize limit).map (·.map (·.scale s))) ∧
    (a.scale s).schur limit = (a.schur limit).map (·.map (·.scale s)) ∧
    (a.scale s).eigensystem ⟨false, false, limit⟩
      = (a.eigensystem ⟨false, false, limit⟩).map (·.map fun e =>
          { e with values := e.values.map (·.scale s) }) := by
  refine ⟨hessenberg_scale hs a, fun withBasis => ?_, schur_scale hs a limit,
    eigensystem_scale hs a limit⟩
  intro p p'
  have hp : p' = p.scale s := hessenberg_scale hs a withBasis
  have hnorm : meanNorm p'.matrix = meanNorm p.matrix * s := by
    rw [hp]
    exact meanNorm_scale hs p.matrix
  constructor
  · rw [hnorm, ← QrState.run_scale hs, hp]
    rfl
  · rw [hp, Similar.triangularize_scale hs]

end DenseMatrix

open DenseMatrix in
theorem scale_equivariant_nearlyDefective :
    (0 : ℝ) < 2 ^ 100 ∧ ((nearlyDefective.scale (2 ^ 100)).schur defaultLimit).value
      = .ok ⟨(nearlyDefective.set 1 0 0).scale (2 ^ 100), some .identity⟩ := by
  have hpos : (0 : ℝ) < 2 ^ 100 := by positivity
  obtain ⟨-, -, hschur, -⟩ := scale_equivariant hpos nearlyDefective defaultLimit
  refine ⟨hpos, ?_⟩
  rw [hschur]
  exact congrArg (Except.map _) (schur_nearlyDefective defaultLimit)

end DenseNumeric
