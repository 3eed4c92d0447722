import DenseNumeric.Proofs.Exact
import DenseNumeric.Proofs.ZeroPattern

/-!
# Substitution, exactly

The vector that substitution finds for a diagonal entry of a triangular
matrix: its largest entry has length one, and it is an eigenvector but for the
rows in which a difference of eigenvalues was too small to divide by.

Right and left eigenvectors differ in the direction of the substitution only.
A left one is a right one of the transpose, so both are seen as one process
(`Substituted`): rows are solved one after another, each for its own unknown,
and no row contains an unknown of a later one. Dividing everything found so
far by the largest length keeps the rows solved, as they are homogeneous.
-/

namespace DenseNumeric

open Matrix

variable {n : Nat}

/-! ## Gaps -/

/-- The smallest difference from the eigenvalue `s` that is divided by. -/
noncomputable def leastGap (n : Nat) (s : Complex ℝ) : ℝ :=
  max (Arith.epsilon * ‖s.toC‖) (smallestGap n)

theorem smallestGap_pos (hn : 0 < n) : (0 : ℝ) < smallestGap n := by
  have hn' : (0 : ℝ) < n := by exact_mod_cast hn
  exact mul_pos Arith.minPositive_pos (div_pos hn' Arith.epsilon_pos)

theorem leastGap_pos (hn : 0 < n) (s : Complex ℝ) : 0 < leastGap n s :=
  lt_of_lt_of_le (smallestGap_pos hn) (le_max_right _ _)

theorem gap_eq (n : Nat) (d s : Complex ℝ) :
    gap n d s = if ‖d.toC - s.toC‖ < leastGap n s then .ofReal (leastGap n s) else d - s := by
  simp only [gap, Complex.magnitude_eq_norm, Arith.larger_eq_max, Complex.toC_sub, leastGap]
  rfl

theorem toC_gap_ne_zero (hn : 0 < n) (d s : Complex ℝ) : (gap n d s).toC ≠ 0 := by
  have hpos := leastGap_pos hn s
  rw [gap_eq]
  split_ifs with h
  · rw [Complex.toC_ofReal]
    exact_mod_cast hpos.ne'
  · rw [Complex.toC_sub]
    exact norm_pos_iff.1 (hpos.trans_le (not_lt.1 h))

theorem toC_gap_of_le {d s : Complex ℝ} (h : leastGap n s ≤ ‖d.toC - s.toC‖) :
    (gap n d s).toC = d.toC - s.toC := by
  rw [gap_eq, if_neg (not_lt.2 h), Complex.toC_sub]

/-- A difference that is replaced is changed by less than twice the least one. -/
theorem norm_sub_gap_le (hn : 0 < n) (d s : Complex ℝ) :
    ‖d.toC - (gap n d s).toC - s.toC‖ ≤ 2 * leastGap n s := by
  have hpos := leastGap_pos hn s
  rcases lt_or_ge ‖d.toC - s.toC‖ (leastGap n s) with h | h
  · rw [gap_eq, if_pos h, Complex.toC_ofReal, sub_right_comm]
    calc ‖d.toC - s.toC - (leastGap n s : ℂ)‖
        ≤ ‖d.toC - s.toC‖ + ‖(leastGap n s : ℂ)‖ := norm_sub_le _ _
      _ ≤ leastGap n s + leastGap n s := by
          refine add_le_add h.le ?_
          rw [Complex.norm_real, Real.norm_eq_abs, abs_of_pos hpos]
      _ = 2 * leastGap n s := (two_mul _).symm
  · rw [toC_gap_of_le h, sub_sub_cancel, sub_self, norm_zero]
    positivity

/-! ## Lists as vectors -/

/-- The vector with the entries of a list from coordinate `first` on, and
zeros elsewhere. -/
noncomputable def place (first : Nat) (es : List (Complex ℝ)) : Fin n → ℂ := fun k =>
  if first ≤ k then (es.getD (k - first) 0).toC else 0

theorem place_of_lt {first : Nat} (es : List (Complex ℝ)) {k : Fin n} (h : (k : Nat) < first) :
    place first es k = 0 :=
  if_neg (not_le.2 h)

theorem place_of_ge {first : Nat} {es : List (Complex ℝ)} {k : Fin n}
    (h : first + es.length ≤ k) : place first es k = 0 := by
  rw [place, if_pos (by omega), List.getD_eq_default _ _ (by omega), Complex.toC_zero]

theorem place_nil (first : Nat) : (place first [] : Fin n → ℂ) = 0 := by
  ext k
  simp [place]

theorem exists_place_eq {first : Nat} {es : List (Complex ℝ)} {e : Complex ℝ} (he : e ∈ es)
    (hes : first + es.length ≤ n) : ∃ k : Fin n, place first es k = e.toC := by
  obtain ⟨m, hm, rfl⟩ := List.getElem_of_mem he
  refine ⟨⟨first + m, by omega⟩, ?_⟩
  rw [place, if_pos (Nat.le_add_right _ _), Nat.add_sub_cancel_left, List.getD_eq_getElem _ _ hm]

theorem norm_place_le {first : Nat} {es : List (Complex ℝ)} {x : ℝ} (hx : 0 ≤ x)
    (hes : ∀ e ∈ es, ‖e.toC‖ ≤ x) (k : Fin n) : ‖place first es k‖ ≤ x := by
  rcases Nat.lt_or_ge k first with hk | hk
  · rwa [place_of_lt es hk, norm_zero]
  rcases Nat.lt_or_ge k (first + es.length) with hk' | hk'
  · rw [place, if_pos hk, List.getD_eq_getElem _ _ (by omega)]
    exact hes _ (List.getElem_mem _)
  · rwa [place_of_ge hk', norm_zero]

theorem place_cons {first : Nat} (hfirst : first < n) (x : Complex ℝ) (es : List (Complex ℝ)) :
    (place first (x :: es) : Fin n → ℂ)
      = Function.update (place (first + 1) es) ⟨first, hfirst⟩ x.toC := by
  ext k
  rcases Nat.lt_trichotomy k first with hk | hk | hk
  · rw [Function.update_of_ne (Fin.ne_of_val_ne hk.ne), place_of_lt _ hk,
      place_of_lt _ (hk.trans (Nat.lt_succ_self first))]
  · obtain rfl : k = ⟨first, hfirst⟩ := Fin.ext hk
    rw [Function.update_self, place, if_pos le_rfl, Nat.sub_self, List.getD_cons_zero]
  · have hsucc : (k : Nat) - first = k - (first + 1) + 1 := by omega
    rw [Function.update_of_ne (Fin.ne_of_val_ne hk.ne'), place, place, if_pos hk.le,
      if_pos (Nat.succ_le_of_lt hk), hsucc, List.getD_cons_succ]

theorem place_concat {first : Nat} {es : List (Complex ℝ)} (h : first + es.length < n)
    (x : Complex ℝ) :
    (place first (es ++ [x]) : Fin n → ℂ)
      = Function.update (place first es) ⟨first + es.length, h⟩ x.toC := by
  ext k
  rcases Nat.lt_trichotomy k (first + es.length) with hk | hk | hk
  · rw [Function.update_of_ne (Fin.ne_of_val_ne hk.ne), place, place]
    split_ifs
    · rw [List.getD_append _ _ _ _ (by omega)]
    · rfl
  · obtain rfl : k = ⟨first + es.length, h⟩ := Fin.ext hk
    rw [Function.update_self, place, if_pos (Nat.le_add_right _ _), Nat.add_sub_cancel_left,
      List.getD_append_right _ _ _ _ le_rfl, Nat.sub_self, List.getD_cons_zero]
  · rw [Function.update_of_ne (Fin.ne_of_val_ne hk.ne'), place_of_ge hk.le, place_of_ge]
    rw [List.length_append, List.length_singleton]
    omega

theorem place_map_divReal (first : Nat) (es : List (Complex ℝ)) (x : ℝ) :
    (place first (es.map (·.divReal x)) : Fin n → ℂ) = (x : ℂ)⁻¹ • place first es := by
  have hzero : (0 : Complex ℝ) = (0 : Complex ℝ).divReal x :=
    Complex.toC_injective (by simp)
  ext k
  rw [Pi.smul_apply, place, place]
  split_ifs
  · rw [hzero, List.getD_map, Complex.toC_divReal, ← hzero, smul_eq_mul, div_eq_inv_mul]
  · rw [smul_zero]

theorem dotProduct_update (c x : Fin n → ℂ) (j : Fin n) (z : ℂ) :
    c ⬝ᵥ Function.update x j z = c ⬝ᵥ x + c j * (z - x j) := by
  have hsum : Function.update x j z = x + Pi.single j (z - x j) := by
    ext k
    by_cases hk : k = j
    · subst hk
      simp
    · simp [hk]
  rw [hsum, dotProduct_add, dotProduct_single]

/-- A sum over the entries of a list and their coordinates. -/
theorem toC_sumOver_zipIdx {f : Complex ℝ × Nat → Complex ℝ} {c : Fin n → ℂ}
    (hf : ∀ (x : Complex ℝ) (k : Fin n), (f (x, k)).toC = c k * x.toC) {first : Nat}
    {es : List (Complex ℝ)} (hes : first + es.length ≤ n) :
    (Arith.sumOver (es.zipIdx first) f).toC = c ⬝ᵥ place first es := by
  rw [Arith.sumOver, Complex.toC_foldl_add, Complex.toC_zero, zero_add]
  induction es generalizing first with
  | nil =>
      simp [place_nil]
  | cons x es ih =>
      rw [List.length_cons] at hes
      rw [List.zipIdx_cons, List.map_cons, List.sum_cons, ih (by omega),
        place_cons (by omega), dotProduct_update, place_of_lt es (Nat.lt_succ_self first), sub_zero,
        hf x ⟨first, by omega⟩, add_comm]

/-! ## Rows solved so far -/

/-- Rows of `a` are solved by `x` when they multiply its entries by `d`. -/
def Substituted (a : Matrix (Fin n) (Fin n) ℂ) (d : Fin n → ℂ) (solved : Fin n → Prop)
    (x : Fin n → ℂ) : Prop :=
  ∀ m, solved m → (a *ᵥ x) m = d m * x m

namespace Substituted

variable {a : Matrix (Fin n) (Fin n) ℂ} {d : Fin n → ℂ} {solved : Fin n → Prop} {x : Fin n → ℂ}

/-- Row `j` is solved for its own unknown, which is in no row solved before. -/
theorem update (h : Substituted a d solved x) {j : Fin n} (hx : x j = 0) (hj : ¬solved j)
    (hcol : ∀ m, solved m → a m j = 0) {z : ℂ} (hz : (a *ᵥ x) j = -((a j j - d j) * z)) :
    Substituted a d (fun m => m = j ∨ solved m) (Function.update x j z) := by
  rintro m (rfl | hm)
  · rw [mulVec, dotProduct_update, hx, sub_zero, Function.update_self]
    rw [mulVec] at hz
    rw [hz]
    ring
  · have hmj : m ≠ j := fun h => hj (h ▸ hm)
    rw [mulVec, dotProduct_update, hcol m hm, zero_mul, add_zero, Function.update_of_ne hmj]
    exact h m hm

theorem smul (h : Substituted a d solved x) (c : ℂ) : Substituted a d solved (c • x) := by
  intro m hm
  rw [mulVec_smul, Pi.smul_apply, Pi.smul_apply, h m hm, smul_eq_mul, smul_eq_mul]
  ring

end Substituted

namespace Partial

/-- The entries found so far solve their rows, and `growth` is the length of
the largest of them, which is one or more. -/
structure Solves (a : Matrix (Fin n) (Fin n) ℂ) (d : Fin n → ℂ) (solved : Fin n → Prop)
    (first : Nat) (p : Partial ℝ) : Prop where
  one_le : 1 ≤ p.growth
  le_growth : ∀ e ∈ p.entries, ‖e.toC‖ ≤ p.growth
  attained : ∃ e ∈ p.entries, ‖e.toC‖ = p.growth
  substituted : Substituted a d solved (place first p.entries)

namespace Solves

variable {a : Matrix (Fin n) (Fin n) ℂ} {d : Fin n → ℂ} {solved : Fin n → Prop} {first : Nat}
  {p : Partial ℝ}

theorem scaleDown (h : p.Solves a d solved first) : p.scaleDown.Solves a d solved first := by
  have hpos : 0 < p.growth := lt_of_lt_of_le one_pos h.one_le
  have hnorm : ∀ e : Complex ℝ, ‖(e.divReal p.growth).toC‖ = ‖e.toC‖ / p.growth := by
    intro e
    rw [Complex.toC_divReal, norm_div, Complex.norm_real, Real.norm_eq_abs, abs_of_pos hpos]
  refine ⟨le_rfl, ?_, ?_, ?_⟩
  · intro e he
    obtain ⟨e, hmem, rfl⟩ := List.mem_map.1 he
    rw [hnorm]
    exact (div_le_one hpos).2 (h.le_growth e hmem)
  · obtain ⟨e, hmem, he⟩ := h.attained
    refine ⟨_, List.mem_map_of_mem hmem, ?_⟩
    rw [hnorm, he]
    exact div_self hpos.ne'
  · rw [Partial.scaleDown, place_map_divReal]
    exact h.substituted.smul _

/-- A new entry is taken in beside the old ones. -/
theorem extend (h : p.Solves a d solved first) {x : Complex ℝ} {es : List (Complex ℝ)}
    {solved' : Fin n → Prop} {first' : Nat} (hes : ∀ e, e ∈ es ↔ e = x ∨ e ∈ p.entries)
    (hsub : Substituted a d solved' (place first' es)) :
    (p.extend es x).Solves a d solved' first' := by
  have taken : Solves a d solved' first' ⟨es, Arith.larger p.growth x.magnitude⟩ := by
    rw [Arith.larger_eq_max, Complex.magnitude_eq_norm]
    refine ⟨h.one_le.trans (le_max_left _ _), ?_, ?_, hsub⟩
    · intro e he
      rcases (hes e).1 he with rfl | he
      · exact le_max_right _ _
      · exact (h.le_growth e he).trans (le_max_left _ _)
    · rcases le_total p.growth ‖x.toC‖ with hle | hle
      · exact ⟨x, (hes x).2 (.inl rfl), (max_eq_right hle).symm⟩
      · obtain ⟨e, hmem, he⟩ := h.attained
        exact ⟨e, (hes e).2 (.inr hmem), he.trans (max_eq_left hle).symm⟩
  simp only [Partial.extend]
  split
  · exact taken.scaleDown
  · exact taken

theorem finish (h : p.Solves a d solved first) :
    Solves a d solved first ⟨p.finish, 1⟩ ∧ p.finish.length = p.entries.length := by
  rw [Partial.finish]
  split_ifs with hone
  · obtain ⟨entries, growth⟩ := p
    obtain rfl : growth = 1 := beq_iff_eq.1 hone
    exact ⟨h, rfl⟩
  · exact ⟨h.scaleDown, List.length_map _⟩

end Solves

theorem length_extend {R : Type} [Arith R] (p : Partial R) (es : List (Complex R))
    (x : Complex R) : (p.extend es x).entries.length = es.length := by
  simp only [extend]
  split
  · exact List.length_map _
  · rfl

end Partial

/-! ## Eigenvectors -/

/-- An eigenvector for diagonal entry `i`, but for the rows whose diagonal
entries are nearer to it than `least`. -/
structure IsNearEigenvector (a : Matrix (Fin n) (Fin n) ℂ) (i : Fin n) (least : ℝ)
    (x : Fin n → ℂ) : Prop where
  norm_le_one : ∀ k, ‖x k‖ ≤ 1
  norm_eq_one : ∃ k, ‖x k‖ = 1
  eq_of_le : ∀ j, j = i ∨ least ≤ ‖a j j - a i i‖ → (a *ᵥ x) j = a i i * x j
  norm_sub_le : ∀ j, ‖(a *ᵥ x) j - a i i * x j‖ ≤ 2 * least * ‖x j‖

/-- What substitution multiplies the entries by: the eigenvalue, or what the
gap makes of it. -/
noncomputable def nearEigenvalue (t : DenseMatrix n n (Complex ℝ)) (i m : Fin n) : ℂ :=
  if m = i then (t i i).toC else (t m m).toC - (gap n (t m m) (t i i)).toC

namespace Partial.Solves

/-- When all rows are solved but those in which the vector is zero anyway, it
is the eigenvector. -/
theorem isNearEigenvector {t : DenseMatrix n n (Complex ℝ)} {a : Matrix (Fin n) (Fin n) ℂ}
    {i : Fin n} {first : Nat} {solved : Fin n → Prop} {p : Partial ℝ}
    (h : p.Solves a (nearEigenvalue t i) solved first) (ha : ∀ m, a m m = (t m m).toC)
    (hlen : first + p.entries.length ≤ n)
    (hrest : ∀ m, ¬solved m → (a *ᵥ place first p.finish) m = 0 ∧ place first p.finish m = 0) :
    IsNearEigenvector a i (leastGap n (t i i)) (place first p.finish) := by
  obtain ⟨⟨-, hle, ⟨e, hmem, he⟩, hsub⟩, hlen'⟩ := h.finish
  constructor
  · exact norm_place_le zero_le_one hle
  · have hfit : first + p.finish.length ≤ n := hlen'.symm ▸ hlen
    obtain ⟨k, hk⟩ := exists_place_eq hmem hfit
    exact ⟨k, by rw [hk, he]⟩
  · intro j hj
    by_cases hs : solved j
    · rw [hsub j hs, nearEigenvalue, ha]
      split_ifs with hji
      · rfl
      · rw [toC_gap_of_le (by simpa only [ha] using hj.resolve_left hji), sub_sub_cancel]
    · rw [(hrest j hs).1, (hrest j hs).2, mul_zero]
  · intro j
    by_cases hs : solved j
    · rw [hsub j hs, nearEigenvalue, ha, ← sub_mul, norm_mul]
      refine mul_le_mul_of_nonneg_right ?_ (norm_nonneg _)
      split_ifs with hji
      · rw [sub_self, norm_zero]
        have := leastGap_pos i.pos (t i i)
        positivity
      · exact norm_sub_gap_le i.pos _ _
    · rw [(hrest j hs).1, (hrest j hs).2, mul_zero, sub_zero, norm_zero, mul_zero]

end Partial.Solves

namespace DenseMatrix

/-! ## Upward -/

section Steps

variable {R : Type} [Arith R]

/-- One entry more of a right eigenvector, that of row `j`. -/
def rightStep (t : DenseMatrix n n (Complex R)) (i : Nat) (p : Partial R) (j : Nat) : Partial R :=
  let r := Arith.sumOver (p.entries.zipIdx (j + 1)) fun (x, k) => t j k * x
  let x := -r / gap n (t j j) (t i i)
  p.extend (x :: p.entries) x

theorem rightEigenvector_eq (t : DenseMatrix n n (Complex R)) (i : Nat) :
    t.rightEigenvector i = ((List.range' 0 i).reverse.foldl (t.rightStep i) .start).finish := by
  rw [← List.range_eq_range']
  rfl

/-- One entry more of a left eigenvector, that of column `j`. -/
def leftStep (t : DenseMatrix n n (Complex R)) (i : Nat) (p : Partial R) (j : Nat) : Partial R :=
  let r := Arith.sumOver (p.entries.zipIdx i) fun (x, k) => x * t k j
  let x := -r / gap n (t j j) (t i i)
  p.extend (p.entries ++ [x]) x

theorem leftEigenvector_eq (t : DenseMatrix n n (Complex R)) (i : Nat) :
    t.leftEigenvector i
      = ((List.range' (i + 1) (n - 1 - i)).foldl (t.leftStep i) .start).finish :=
  rfl

end Steps

variable {t : DenseMatrix n n (Complex ℝ)}

theorem IsUpperTriangular.toCMatrix_eq_zero (ht : t.IsUpperTriangular) {m k : Fin n} (h : k < m) :
    t.toCMatrix m k = 0 := by
  rw [toCMatrix_apply, ht m k m.isLt h, Complex.toC_zero]

/-- The new entry is what its row asks for. -/
theorem eq_neg_mul_of_eq_div_gap {i j : Fin n} (hji : j ≠ i) {r x : Complex ℝ}
    (hx : x = -r / gap n (t j j) (t i i)) :
    r.toC = -(((t j j).toC - nearEigenvalue t i j) * x.toC) := by
  have hgap := toC_gap_ne_zero j.pos (t j j) (t i i)
  rw [hx, nearEigenvalue, if_neg hji, sub_sub_cancel, Complex.toC_div, Complex.toC_neg,
    mul_div_cancel₀ _ hgap, neg_neg]

theorem solves_start (a : Matrix (Fin n) (Fin n) ℂ) {i : Fin n} (ha : a i i = (t i i).toC)
    {solved : Fin n → Prop} (hs : ∀ m, solved m → m = i) :
    Partial.start.Solves a (nearEigenvalue t i) solved i := by
  have hplace : (place i [1] : Fin n → ℂ) = Pi.single i 1 := by
    rw [place_cons i.isLt, place_nil]
    rfl
  refine ⟨le_rfl, ?_, ⟨1, List.mem_singleton_self 1, ?_⟩, ?_⟩
  · intro e he
    rw [List.mem_singleton.1 he, Complex.toC_one, norm_one]
    exact le_rfl
  · rw [Complex.toC_one, norm_one]
    rfl
  · intro m hm
    obtain rfl := hs m hm
    rw [Partial.start, hplace, mulVec_single_one, col_apply, Pi.single_eq_same, nearEigenvalue,
      if_pos rfl, mul_one, ha]

theorem rightStep_solves (ht : t.IsUpperTriangular) {i : Fin n} {p : Partial ℝ} {j : Nat}
    (hj : j < i) (hlen : p.entries.length = i - j)
    (h : p.Solves t.toCMatrix (nearEigenvalue t i) (fun m => j + 1 ≤ (m : Nat) ∧ m ≤ i) (j + 1)) :
    (t.rightStep i p j).Solves t.toCMatrix (nearEigenvalue t i)
      (fun m => j ≤ (m : Nat) ∧ m ≤ i) j := by
  have hjn : j < n := hj.trans i.isLt
  have hji : (⟨j, hjn⟩ : Fin n) ≠ i := Fin.ne_of_val_ne hj.ne
  refine h.extend (fun e => List.mem_cons) ?_
  rw [place_cons hjn]
  intro m hm
  refine h.substituted.update (place_of_lt _ (Nat.lt_succ_self j))
    (fun hs => absurd hs.1 (Nat.not_succ_le_self j)) (fun m hm => ht.toCMatrix_eq_zero hm.1) ?_ m ?_
  · refine Eq.trans ?_ (eq_neg_mul_of_eq_div_gap hji rfl)
    exact (toC_sumOver_zipIdx (fun x k => rfl) (by omega)).symm
  · rcases Nat.eq_or_lt_of_le hm.1 with hjm | hjm
    · exact .inl (Fin.ext hjm.symm)
    · exact .inr ⟨hjm, hm.2⟩

theorem leftStep_solves (ht : t.IsUpperTriangular) {i : Fin n} {p : Partial ℝ} {j : Nat}
    (hij : i < j) (hj : j < n) (hlen : p.entries.length = j - i)
    (h : p.Solves t.toCMatrixᵀ (nearEigenvalue t i) (fun m => i ≤ m ∧ (m : Nat) < j) i) :
    (t.leftStep i p j).Solves t.toCMatrixᵀ (nearEigenvalue t i)
      (fun m => i ≤ m ∧ (m : Nat) < j + 1) i := by
  refine h.extend (fun e => ?_) ?_
  · rw [List.mem_append, List.mem_singleton, or_comm]
  obtain rfl : j = i + p.entries.length := by omega
  have hji : (⟨i + p.entries.length, hj⟩ : Fin n) ≠ i := Fin.ne_of_val_ne hij.ne'
  rw [place_concat hj]
  intro m hm
  refine h.substituted.update (place_of_ge le_rfl)
    (fun hs => absurd hs.2 (lt_irrefl _)) (fun m hm => ht.toCMatrix_eq_zero hm.2) ?_ m ?_
  · refine Eq.trans ?_ (eq_neg_mul_of_eq_div_gap hji rfl)
    refine (toC_sumOver_zipIdx (fun x k => ?_) (by omega)).symm
    exact (Complex.toC_mul x _).trans (mul_comm x.toC _)
  · rcases Nat.eq_or_lt_of_le (Nat.le_of_lt_succ hm.2) with hjm | hjm
    · exact .inl (Fin.ext hjm)
    · exact .inr ⟨hm.1, hjm⟩

/-- The right eigenvector for diagonal entry `i`, found from row `i` upward. -/
theorem rightEigenvector_spec (ht : t.IsUpperTriangular) (i : Fin n) :
    (t.rightEigenvector i).length = i + 1 ∧
      IsNearEigenvector t.toCMatrix i (leastGap n (t i i)) (place 0 (t.rightEigenvector i)) := by
  have all : ((List.range' 0 i).reverse.foldl (t.rightStep i) .start).entries.length = i + 1 - 0 ∧
      ((List.range' 0 i).reverse.foldl (t.rightStep i) .start).Solves t.toCMatrix
        (nearEigenvalue t i) (fun m => 0 ≤ (m : Nat) ∧ m ≤ i) 0 := by
    refine foldl_descending (P := fun j (p : Partial ℝ) => p.entries.length = i + 1 - j ∧
      p.Solves t.toCMatrix (nearEigenvalue t i) (fun m => j ≤ (m : Nat) ∧ m ≤ i) j) ?_ ?_
    · rw [Nat.zero_add]
      refine ⟨by simp [Partial.start], solves_start _ rfl fun m hm => le_antisymm hm.2 hm.1⟩
    · rintro j p - hj ⟨hlen, h⟩
      refine ⟨?_, rightStep_solves ht (by omega) (by omega) h⟩
      rw [rightStep, Partial.length_extend, List.length_cons]
      omega
  obtain ⟨hlen, h⟩ := all
  rw [rightEigenvector_eq]
  refine ⟨h.finish.2.trans hlen, h.isNearEigenvector (fun _ => rfl) (by omega) ?_⟩
  intro m hm
  have hzero : ∀ k, m ≤ k → place 0
      ((List.range' 0 i).reverse.foldl (t.rightStep i) .start).finish k = 0 := by
    intro k hk
    refine place_of_ge ?_
    rw [h.finish.2]
    omega
  refine ⟨?_, hzero m le_rfl⟩
  rw [mulVec, dotProduct]
  -- below row `i` the vector has ended wherever the matrix begins
  refine Finset.sum_eq_zero fun k _ => ?_
  rcases lt_or_ge k m with hk | hk
  · rw [ht.toCMatrix_eq_zero hk, zero_mul]
  · rw [hzero k hk, mul_zero]

/-- The left eigenvector for diagonal entry `i`, found from column `i` on. -/
theorem leftEigenvector_spec (ht : t.IsUpperTriangular) (i : Fin n) :
    (t.leftEigenvector i).length = n - i ∧
      IsNearEigenvector t.toCMatrixᵀ i (leastGap n (t i i)) (place i (t.leftEigenvector i)) := by
  have hend : (i : Nat) + 1 + (n - 1 - i) = n := by omega
  have all : ((List.range' (i + 1) (n - 1 - i)).foldl (t.leftStep i) .start).entries.length
        = i + 1 + (n - 1 - i) - i ∧
      ((List.range' (i + 1) (n - 1 - i)).foldl (t.leftStep i) .start).Solves t.toCMatrixᵀ
        (nearEigenvalue t i) (fun m => i ≤ m ∧ (m : Nat) < i + 1 + (n - 1 - i)) i := by
    refine foldl_ascending (P := fun j (p : Partial ℝ) => p.entries.length = j - i ∧
      p.Solves t.toCMatrixᵀ (nearEigenvalue t i) (fun m => i ≤ m ∧ (m : Nat) < j) i) ?_ ?_
    · refine ⟨by simp [Partial.start], solves_start _ rfl fun m hm => ?_⟩
      exact le_antisymm (Fin.le_def.2 (Nat.le_of_lt_succ hm.2)) hm.1
    · rintro j p hij hj ⟨hlen, h⟩
      refine ⟨?_, leftStep_solves ht (by omega) (by omega) hlen h⟩
      rw [leftStep, Partial.length_extend, List.length_append, List.length_singleton]
      omega
  rw [hend] at all
  obtain ⟨hlen, h⟩ := all
  rw [leftEigenvector_eq]
  refine ⟨h.finish.2.trans hlen, h.isNearEigenvector (fun _ => rfl) (by omega) ?_⟩
  intro m hm
  have hmi : m < i := not_le.1 fun h => hm ⟨h, m.isLt⟩
  refine ⟨?_, place_of_lt _ hmi⟩
  rw [mulVec, dotProduct]
  refine Finset.sum_eq_zero fun k _ => ?_
  rcases lt_or_ge m k with hk | hk
  · rw [transpose_apply, ht.toCMatrix_eq_zero hk, zero_mul]
  · rw [place_of_lt _ (lt_of_le_of_lt hk hmi), mul_zero]

end DenseMatrix

end DenseNumeric
