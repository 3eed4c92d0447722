import DenseNumeric.Proofs.HessenbergForm
import DenseNumeric.Proofs.Sweep

/-!
# The triangular form and its error

A run of the QR iteration loses nothing but what it deflates. Between two
deflations the matrix moves by unitary similarities, and a deflation drops one
entry below the diagonal, which the test for it has found to be small. So at
any time the original matrix is the current one in the basis that is carried
along, and a sum of dropped entries.

There are less than `n` of them, although a run may deflate more often: a
zero below the diagonal is deflated too, and drops nothing. Where an entry is
dropped a zero is made, and the zeros stay, as a sweep is made only where the
block has none (`zeros_subset_zeros_sweep`).
-/

namespace DenseNumeric

open Matrix
open scoped Matrix.Norms.Frobenius

variable {n : Nat}

/-! ## The norm that deflation compares with -/

theorem sum_map_flatMap {α β : Type} (xs : List α) (f : α → List β) (g : β → ℝ) :
    ((xs.flatMap f).map g).sum = (xs.map fun x => ((f x).map g).sum).sum := by
  induction xs with
  | nil => rfl
  | cons x xs ih => rw [List.flatMap_cons, List.map_append, List.sum_append, ih, List.map_cons,
      List.sum_cons]

/-- A Hessenberg matrix has its length in the band that `meanNorm` reads. -/
theorem meanNorm_eq {a : DenseMatrix n n (Complex ℝ)} (ha : a.IsHessenberg) :
    meanNorm a = ‖a.toCMatrix‖ / n := by
  have column : ∀ j : Fin n,
      (((List.range (min ((j : Nat) + 2) n)).map (a · j)).map fun z => ‖z.toC‖ ^ 2).sum
        = ∑ i : Fin n, ‖a.toCMatrix i j‖ ^ 2 := by
    intro j
    rw [List.map_map, sum_map_range, Fin.sum_univ_eq_sum_range
      (fun i => ((fun z : Complex ℝ => ‖z.toC‖ ^ 2) ∘ (a · j)) i)]
    simp only [DenseMatrix.toCMatrix_apply, Function.comp_apply]
    rw [Fin.sum_univ_eq_sum_range (fun i => ‖(a i j).toC‖ ^ 2)]
    refine Finset.sum_subset (Finset.range_mono (Nat.min_le_right _ _)) fun i hi hband => ?_
    rw [Finset.mem_range] at hi hband
    rw [ha i j hi (by omega)]
    simp
  rw [meanNorm, DenseMatrix.lengthOf_eq_sqrt, sum_map_flatMap, sum_map_range,
    Finset.sum_congr rfl fun j _ => column j, Finset.sum_comm, ← frobenius_sq,
    Real.sqrt_sq (norm_nonneg _)]

namespace QrState

/-! ## Negligible entries -/

/-- What the subdiagonal entry in column `k` is compared with. -/
noncomputable def weight (s : QrState n ℝ) (norm : ℝ) (k : Nat) : ℝ :=
  let a := s.current.matrix
  let neighbours := (a k k).taxicab + (a (k + 1) (k + 1)).taxicab
  if neighbours < Arith.epsilon * norm then norm else neighbours

theorem lt_of_negligible? {s : QrState n ℝ} {norm : ℝ} {k : Nat}
    (h : s.negligible? norm = some k) :
    ‖(s.current.matrix (k + 1) k).toC‖ < Arith.epsilon * s.weight norm k := by
  have := List.find?_some h
  rw [decide_eq_true_eq, Complex.magnitude_eq_norm] at this
  exact this

theorem le_of_negligible? {s : QrState n ℝ} {norm : ℝ} {k : Nat}
    (h : s.negligible? norm = none) (hlow : s.low ≤ k) (hhigh : k + 1 < s.high) :
    Arith.epsilon * s.weight norm k ≤ ‖(s.current.matrix (k + 1) k).toC‖ := by
  have := List.find?_eq_none.1 h k (List.mem_range'_1.2 (by omega))
  rw [decide_eq_true_eq, Complex.magnitude_eq_norm, not_lt] at this
  exact this

theorem weight_pos (s : QrState n ℝ) {norm : ℝ} (hnorm : 0 < norm) (k : Nat) :
    0 < s.weight norm k := by
  simp only [weight]
  split_ifs with h
  · exact hnorm
  · exact lt_of_lt_of_le (mul_pos Arith.epsilon_pos hnorm) (not_lt.1 h)

/-- Two diagonal entries are at most twice as long as the matrix, even by
their taxicab lengths. -/
theorem weight_le (s : QrState n ℝ) {norm bound : ℝ} (hnorm : norm ≤ bound)
    (hbound : ‖s.current.matrix.toCMatrix‖ ≤ bound) {k : Nat} (hk : k + 1 < n) :
    s.weight norm k ≤ 2 * bound := by
  have hpos : 0 ≤ bound := (norm_nonneg _).trans hbound
  simp only [weight]
  split_ifs
  · linarith
  · refine (abs_le_of_sq_le_sq' ?_ (by linarith)).2
    set x := s.current.matrix k k
    set y := s.current.matrix (k + 1) (k + 1)
    have pair : ‖x.toC‖ ^ 2 + ‖y.toC‖ ^ 2 ≤ bound ^ 2 := by
      have hle := norm_sq_diag_pair_le s.current.matrix.toCMatrix
        (i := ⟨k, by omega⟩) (k := ⟨k + 1, hk⟩) (by simp)
      exact hle.trans (pow_le_pow_left₀ (norm_nonneg _) hbound 2)
    nlinarith [Complex.taxicab_sq_le x, Complex.taxicab_sq_le y, sq_nonneg (x.taxicab - y.taxicab)]

end QrState

/-! ## Dropped entries -/

/-- A single nonzero entry below the diagonal, shorter than `δ`, as it looks
in some orthonormal basis. -/
def IsDropped (δ : ℝ) (e : Matrix (Fin n) (Fin n) ℂ) : Prop :=
  ∃ u ∈ unitaryGroup (Fin n) ℂ, ∃ (i k : Fin n) (x : ℂ),
    (i : Nat) = k + 1 ∧ x ≠ 0 ∧ ‖x‖ < δ ∧ e = u * single i k x * uᴴ

theorem IsDropped.norm_le {δ : ℝ} {e : Matrix (Fin n) (Fin n) ℂ} (h : IsDropped δ e) : ‖e‖ ≤ δ := by
  obtain ⟨u, hu, i, k, x, -, -, hx, rfl⟩ := h
  rw [norm_conj_unitary hu, norm_single]
  exact hx.le

theorem norm_sum_le_of_isDropped {δ : ℝ} {es : List (Matrix (Fin n) (Fin n) ℂ)}
    (h : ∀ e ∈ es, IsDropped δ e) : ‖es.sum‖ ≤ es.length * δ := by
  induction es with
  | nil => simp
  | cons e es ih =>
      obtain ⟨he, hes⟩ := List.forall_mem_cons.1 h
      calc ‖(e :: es).sum‖
          ≤ ‖e‖ + ‖es.sum‖ := by
            rw [List.sum_cons]
            exact norm_add_le _ _
        _ ≤ δ + es.length * δ := add_le_add he.norm_le (ih hes)
        _ = (e :: es).length * δ := by
            rw [List.length_cons]
            push_cast
            ring

namespace QrState

open Classical in
/-- The columns with a zero below the diagonal. -/
noncomputable def zeros (s : QrState n ℝ) : Finset Nat :=
  (Finset.range (n - 1)).filter fun k => s.current.matrix (k + 1) k = 0

theorem mem_zeros {s : QrState n ℝ} {k : Nat} :
    k ∈ s.zeros ↔ k + 1 < n ∧ s.current.matrix (k + 1) k = 0 := by
  rw [zeros, Finset.mem_filter, Finset.mem_range]
  have : k < n - 1 ↔ k + 1 < n := by omega
  rw [this]

theorem card_zeros_le (s : QrState n ℝ) : s.zeros.card ≤ n - 1 :=
  (Finset.card_filter_le _ _).trans (Finset.card_range _).le

/-- Before a sweep, the block has no zeros below its diagonal. -/
theorem zeros_subset_zeros_sweep {s : QrState n ℝ} {norm : ℝ} (hs : s.Decoupled)
    (hhigh : 2 ≤ s.high) (hnorm : 0 < norm) (hnone : s.negligible? norm = none) :
    s.zeros ⊆ (s.sweep norm).zeros := by
  intro k hk
  obtain ⟨hkn, hzero⟩ := mem_zeros.1 hk
  have hout : k < s.low ∨ s.high ≤ k + 1 := by
    by_contra hin
    have hle := le_of_negligible? hnone (k := k) (by omega) (by omega)
    rw [hzero, Complex.toC_zero, norm_zero] at hle
    exact absurd hle (not_le.2 (mul_pos Arith.epsilon_pos (s.weight_pos hnorm k)))
  refine mem_zeros.2 ⟨hkn, ?_⟩
  exact (Similar.sweep_subdiagonal s.current (hs.low_add_two_le hhigh) hkn hout _).trans hzero

theorem zeros_subset_zeros_deflate (s : QrState n ℝ) (k : Nat) : s.zeros ⊆ (s.deflate k).zeros := by
  intro j hj
  obtain ⟨hjn, hzero⟩ := mem_zeros.1 hj
  refine mem_zeros.2 ⟨hjn, ?_⟩
  rw [deflate_apply s k hjn (by omega), hzero, ite_self]

theorem card_zeros_deflate {s : QrState n ℝ} {k : Nat} (hk : k + 1 < n)
    (h : s.current.matrix (k + 1) k ≠ 0) : s.zeros.card + 1 ≤ (s.deflate k).zeros.card := by
  refine Finset.card_lt_card ((Finset.ssubset_iff_of_subset (zeros_subset_zeros_deflate s k)).2
    ⟨k, mem_zeros.2 ⟨hk, ?_⟩, fun hmem => h (mem_zeros.1 hmem).2⟩)
  rw [deflate_apply s k hk (by omega), if_pos ⟨rfl, rfl⟩]

/-! ## The run -/

theorem toCMatrix_deflate (s : QrState n ℝ) {k : Nat} (hk : k + 1 < n) :
    s.current.matrix.toCMatrix = (s.deflate k).current.matrix.toCMatrix
      + single ⟨k + 1, hk⟩ ⟨k, Nat.lt_of_succ_lt hk⟩ (s.current.matrix (k + 1) k).toC := by
  ext i j
  rw [Matrix.add_apply, DenseMatrix.toCMatrix_apply, DenseMatrix.toCMatrix_apply,
    deflate_apply s k i.isLt j.isLt, single_apply]
  simp only [Fin.ext_iff]
  by_cases h : (i : Nat) = k + 1 ∧ (j : Nat) = k
  · rw [if_pos h, if_pos ⟨h.1.symm, h.2.symm⟩, h.1, h.2, Complex.toC_zero, zero_add]
  · rw [if_neg h, if_neg (fun h' => h ⟨h'.1.symm, h'.2.symm⟩), add_zero]

theorem norm_deflate_le (s : QrState n ℝ) (k : Nat) :
    ‖(s.deflate k).current.matrix.toCMatrix‖ ≤ ‖s.current.matrix.toCMatrix‖ := by
  refine (abs_le_of_sq_le_sq' ?_ (norm_nonneg _)).2
  rw [frobenius_sq, frobenius_sq]
  refine Finset.sum_le_sum fun i _ => Finset.sum_le_sum fun j _ => ?_
  rw [DenseMatrix.toCMatrix_apply, DenseMatrix.toCMatrix_apply, deflate_apply s k i.isLt j.isLt]
  split_ifs
  · rw [Complex.toC_zero, norm_zero, zero_pow two_ne_zero]
    positivity
  · exact le_rfl

/-- A run from `a` has come to `s`: the matrix has the same operator, but for
entries that were dropped, at most one for each zero below the diagonal. -/
structure IsPerturbationOf (a : Matrix (Fin n) (Fin n) ℂ) (s : QrState n ℝ) : Prop where
  decoupled : s.Decoupled
  norm_le : ‖s.current.matrix.toCMatrix‖ ≤ ‖a‖
  form : ∃ q, ∃ es : List (Matrix (Fin n) (Fin n) ℂ),
    s.current.basis = some q ∧ q.toCMatrix ∈ unitaryGroup (Fin n) ℂ ∧
    es.length ≤ s.zeros.card ∧ (∀ e ∈ es, IsDropped (2 * Arith.epsilon * ‖a‖) e) ∧
    a = q.toCMatrix * s.current.matrix.toCMatrix * q.toCMatrixᴴ + es.sum

namespace IsPerturbationOf

variable {a : Matrix (Fin n) (Fin n) ℂ} {s : QrState n ℝ} {norm : ℝ}

theorem sweep (h : IsPerturbationOf a s) (hhigh : 2 ≤ s.high) (hnorm : 0 < norm)
    (hnone : s.negligible? norm = none) : IsPerturbationOf a (s.sweep norm) := by
  have hd := h.decoupled
  obtain ⟨u, hu, hm, hq⟩ := Similar.sweep_isSimilarTo hd.isHessenberg (hd.low_add_two_le hhigh)
    hd.high_le (fun k hk _ => hd.above k hk) (fun k hk hkn => hd.below k hk.ge hkn) (s.shift norm)
  obtain ⟨q, es, hbasis, hunit, hlen, hdrop, hform⟩ := h.form
  refine ⟨hd.sweep hhigh norm, ?_, ?_⟩
  · show ‖(s.current.sweep s.low s.high (s.shift norm)).matrix.toCMatrix‖ ≤ ‖a‖
    rw [hm, norm_conj_unitary hu]
    exact h.norm_le
  · rw [hbasis, Option.map_some, Option.map_eq_some_iff] at hq
    obtain ⟨q', hbasis', hq'⟩ := hq
    have hback : q'.toCMatrix * (u * s.current.matrix.toCMatrix * uᴴ) * q'.toCMatrixᴴ
        = q.toCMatrix * s.current.matrix.toCMatrix * q.toCMatrixᴴ := by
      rw [hq', conjTranspose_mul, conjTranspose_conjTranspose]
      calc q.toCMatrix * uᴴ * (u * s.current.matrix.toCMatrix * uᴴ) * (u * q.toCMatrixᴴ)
          = q.toCMatrix * (uᴴ * u) * s.current.matrix.toCMatrix * (uᴴ * u) * q.toCMatrixᴴ := by
            simp only [Matrix.mul_assoc]
        _ = q.toCMatrix * s.current.matrix.toCMatrix * q.toCMatrixᴴ := by
            rw [conjTranspose_mul_unitary hu, Matrix.mul_one, Matrix.mul_one]
    refine ⟨q', es, hbasis', ?_, ?_, hdrop, ?_⟩
    · rw [hq']
      exact mul_mem hunit (conjTranspose_mem_unitaryGroup hu)
    · exact hlen.trans (Finset.card_le_card (zeros_subset_zeros_sweep hd hhigh hnorm hnone))
    · show a = q'.toCMatrix * (s.current.sweep s.low s.high (s.shift norm)).matrix.toCMatrix
        * q'.toCMatrixᴴ + es.sum
      rw [hm, hback]
      exact hform

theorem deflate (h : IsPerturbationOf a s) {k : Nat} (hle : norm ≤ ‖a‖)
    (hk : s.negligible? norm = some k) : IsPerturbationOf a (s.deflate k) := by
  obtain ⟨hlow, hhigh⟩ := negligible?_bounds hk
  have hkn : k + 1 < n := by have := h.decoupled.high_le; omega
  have hsmall : ‖(s.current.matrix (k + 1) k).toC‖ < 2 * Arith.epsilon * ‖a‖ :=
    calc ‖(s.current.matrix (k + 1) k).toC‖
        < Arith.epsilon * s.weight norm k := lt_of_negligible? hk
      _ ≤ Arith.epsilon * (2 * ‖a‖) :=
          mul_le_mul_of_nonneg_left (s.weight_le hle h.norm_le hkn) Arith.epsilon_pos.le
      _ = 2 * Arith.epsilon * ‖a‖ := by ring
  obtain ⟨q, es, hbasis, hunit, hlen, hdrop, hform⟩ := h.form
  refine ⟨h.decoupled.deflate hlow hhigh, (s.norm_deflate_le k).trans h.norm_le, ?_⟩
  rw [s.toCMatrix_deflate hkn] at hform
  -- only an entry that was not zero is dropped, and it makes one zero more
  by_cases hzero : s.current.matrix (k + 1) k = 0
  · refine ⟨q, es, hbasis, hunit,
      hlen.trans (Finset.card_le_card (zeros_subset_zeros_deflate s k)), hdrop, ?_⟩
    rw [hzero, Complex.toC_zero, single_zero, add_zero] at hform
    exact hform
  · refine ⟨q, q.toCMatrix * single ⟨k + 1, hkn⟩ ⟨k, by omega⟩ (s.current.matrix (k + 1) k).toC
      * q.toCMatrixᴴ :: es, hbasis, hunit, ?_, ?_, ?_⟩
    · rw [List.length_cons]
      exact (Nat.succ_le_succ hlen).trans (card_zeros_deflate hkn hzero)
    · refine List.forall_mem_cons.2 ⟨⟨_, hunit, _, _, _, rfl, ?_, hsmall, rfl⟩, hdrop⟩
      exact fun h0 => hzero (Complex.toC_eq_zero.1 h0)
    · rw [List.sum_cons, ← add_assoc, ← Matrix.add_mul, ← Matrix.mul_add]
      exact hform

theorem step (h : IsPerturbationOf a s) (hhigh : 2 ≤ s.high) (hnorm : 0 < norm) (hle : norm ≤ ‖a‖) :
    IsPerturbationOf a (s.step norm) := by
  unfold QrState.step
  split
  · rename_i k hk
    exact h.deflate hle hk
  · rename_i hnone
    exact h.sweep hhigh hnorm hnone

theorem run (h : IsPerturbationOf a s) (hnorm : 0 < norm) (hle : norm ≤ ‖a‖) (limit : Nat) :
    IsPerturbationOf a (run norm limit s) :=
  run_induction h fun _ hhigh _ h => h.step hhigh hnorm hle

end IsPerturbationOf

end QrState

/-! ## The triangular form -/

/-- `p` is a triangular form of `a` in the basis `q`: less than `n` entries
were dropped on the way, each of them shorter than `δ`. -/
structure IsSchurForm (a : DenseMatrix n n (Complex ℝ)) (p : Similar n ℝ)
    (q : DenseMatrix n n (Complex ℝ)) (δ : ℝ) : Prop where
  basis_eq : p.basis = some q
  unitary : q.toCMatrix ∈ unitaryGroup (Fin n) ℂ
  isUpperTriangular : p.matrix.IsUpperTriangular
  dropped : ∃ es : List (Matrix (Fin n) (Fin n) ℂ), es.length ≤ n - 1 ∧
    (∀ e ∈ es, IsDropped δ e) ∧
    a.toCMatrix = q.toCMatrix * p.matrix.toCMatrix * q.toCMatrixᴴ + es.sum

theorem IsSchurForm.norm_sub_le {a : DenseMatrix n n (Complex ℝ)} {p : Similar n ℝ}
    {q : DenseMatrix n n (Complex ℝ)} {δ : ℝ} (hδ : 0 ≤ δ) (h : IsSchurForm a p q δ) :
    ‖a.toCMatrix - q.toCMatrix * p.matrix.toCMatrix * q.toCMatrixᴴ‖ ≤ (n - 1 : Nat) * δ := by
  obtain ⟨es, hlen, hdrop, hform⟩ := h.dropped
  rw [hform, add_sub_cancel_left]
  calc ‖es.sum‖
      ≤ es.length * δ := norm_sum_le_of_isDropped hdrop
    _ ≤ (n - 1 : Nat) * δ := mul_le_mul_of_nonneg_right (by exact_mod_cast hlen) hδ

namespace QrState

/-- At the start nothing is dropped yet. -/
theorem IsPerturbationOf.start {a : Matrix (Fin n) (Fin n) ℂ} {p : Similar n ℝ}
    {q : DenseMatrix n n (Complex ℝ)} (hn : 1 ≤ n) (hp : p.matrix.IsHessenberg)
    (hbasis : p.basis = some q) (hq : q.toCMatrix ∈ unitaryGroup (Fin n) ℂ)
    (ha : a = q.toCMatrix * p.matrix.toCMatrix * q.toCMatrixᴴ) :
    IsPerturbationOf a ⟨p, 0, n, 0, 0, []⟩ where
  decoupled := .start hp hn
  norm_le := by rw [ha, norm_conj_unitary hq]
  form := ⟨q, [], hbasis, hq, Nat.zero_le _, by simp, by simpa using ha⟩

/-- What a run has come to when nothing is left of the block. -/
theorem IsPerturbationOf.isSchurForm {a : DenseMatrix n n (Complex ℝ)} {s : QrState n ℝ}
    (h : IsPerturbationOf a.toCMatrix s) (hhigh : s.high < 2) :
    ∃ q, IsSchurForm a s.current q (2 * Arith.epsilon * ‖a.toCMatrix‖) := by
  obtain ⟨q, es, hbasis, hunit, hlen, hdrop, hform⟩ := h.form
  exact ⟨q, hbasis, hunit, h.decoupled.isUpperTriangular hhigh, es,
    hlen.trans s.card_zeros_le, hdrop, hform⟩

end QrState

namespace Similar

theorem triangularize_eq_ok {p t : Similar n ℝ} {limit : Nat}
    (h : (p.triangularize limit).value = .ok t) :
    (n ≤ 1 ∨ meanNorm p.matrix = 0) ∧ t = p ∨
      1 < n ∧ meanNorm p.matrix ≠ 0 ∧
        let s := QrState.run (meanNorm p.matrix) limit ⟨p, 0, n, 0, 0, []⟩
        s.high < 2 ∧ t = s.current := by
  simpa using value_triangularize_eq_ok h

/-- Of two rows, the subdiagonal entry is dropped at once if it is negligible. -/
theorem triangularize_of_lt {p : Similar 2 ℝ} (limit : Nat) (hnorm : meanNorm p.matrix ≠ 0)
    (h : ‖(p.matrix 1 0).toC‖
      < Arith.epsilon * QrState.weight ⟨p, 0, 2, 0, 0, []⟩ (meanNorm p.matrix) 0) :
    (p.triangularize limit).value = .ok { p with matrix := p.matrix.set 1 0 0 } := by
  have hfind : QrState.negligible? ⟨p, 0, 2, 0, 0, []⟩ (meanNorm p.matrix) = some 0 := by
    have hcolumns : List.range' 0 (2 - 1 - 0) = [0] := rfl
    rw [QrState.negligible?, hcolumns]
    refine List.find?_cons_of_pos ?_
    rw [decide_eq_true_eq, Complex.magnitude_eq_norm]
    exact h
  have hstep : QrState.step ⟨p, 0, 2, 0, 0, []⟩ (meanNorm p.matrix)
      = QrState.deflate ⟨p, 0, 2, 0, 0, []⟩ 0 := by
    rw [QrState.step, hfind]
  have hrun : QrState.run (meanNorm p.matrix) limit ⟨p, 0, 2, 0, 0, []⟩
      = QrState.deflate ⟨p, 0, 2, 0, 0, []⟩ 0 := by
    rw [QrState.run_of_le (le_refl 2) (Nat.zero_le limit), hstep]
    exact QrState.run_of_lt (.inl Nat.one_lt_two)
  rw [triangularize]
  simp only [beq_iff_eq, hnorm, Bool.or_eq_true, decide_eq_true_eq, Nat.not_succ_le_self, or_self,
    if_false, hrun]
  rfl

end Similar

namespace DenseMatrix

theorem exists_isSchurForm (a : DenseMatrix n n (Complex ℝ)) {limit : Nat} {p : Similar n ℝ}
    (h : ((a.hessenberg true).triangularize limit).value = .ok p) :
    ∃ q, IsSchurForm a p q (2 * Arith.epsilon * ‖a.toCMatrix‖) := by
  obtain ⟨q, hbasis, hq, ha⟩ := a.exists_basis_hessenberg
  have hform : (a.hessenberg true).matrix.IsHessenberg := Reduction.ofMatrix_isHessenberg a
  have hnorm : ‖a.toCMatrix‖ = ‖(a.hessenberg true).matrix.toCMatrix‖ := by
    rw [ha, norm_conj_unitary hq]
  rcases Similar.triangularize_eq_ok h with ⟨hquiet, rfl⟩ | ⟨hn, hmean, hhigh, rfl⟩
  · -- without a run, the Hessenberg form is triangular: it has one row, or is zero
    refine ⟨q, hbasis, hq, ?_, [], Nat.zero_le _, by simp, by simpa using ha⟩
    intro i k hi hk
    rcases hquiet with hn | hmean
    · omega
    · rw [meanNorm_eq hform, div_eq_zero_iff, Nat.cast_eq_zero] at hmean
      have hzero : (a.hessenberg true).matrix.toCMatrix = 0 :=
        norm_eq_zero.1 (hmean.resolve_right (by omega))
      have := congrFun (congrFun hzero ⟨i, hi⟩) ⟨k, by omega⟩
      exact Complex.toC_eq_zero.1 this
  · have hpos : (1 : ℝ) ≤ n := by exact_mod_cast hn.le
    rw [meanNorm_eq hform] at hmean hhigh ⊢
    refine QrState.IsPerturbationOf.isSchurForm ?_ hhigh
    refine (QrState.IsPerturbationOf.start hn.le hform hbasis hq ha).run ?_ ?_ limit
    · exact lt_of_le_of_ne (by positivity) hmean.symm
    · rw [hnorm]
      exact div_le_self (norm_nonneg _) hpos

/-- The Schur form is what it is meant to be: the basis is unitary, the matrix
triangular, and the matrix it is made from differs from it by less than `n`
dropped entries below the diagonal, each negligible beside the whole. -/
theorem schur_backward_stable (a : DenseMatrix n n (Complex ℝ)) (limit : Nat) (p : Similar n ℝ)
    (h : (a.schur limit).value = .ok p) :
    ∃ q, p.basis = some q ∧ q.toCMatrix ∈ unitaryGroup (Fin n) ℂ ∧
      (∀ r c, r < n → c < r → p.matrix r c = 0) ∧
      (∃ es : List (Matrix (Fin n) (Fin n) ℂ), es.length ≤ n - 1 ∧
        (∀ e ∈ es, IsDropped (2 * Arith.epsilon * ‖a.toCMatrix‖) e) ∧
        a.toCMatrix = q.toCMatrix * p.matrix.toCMatrix * q.toCMatrixᴴ + es.sum) ∧
      ‖a.toCMatrix - q.toCMatrix * p.matrix.toCMatrix * q.toCMatrixᴴ‖
        ≤ 2 * (n - 1 : Nat) * Arith.epsilon * ‖a.toCMatrix‖ := by
  obtain ⟨q, hform⟩ := a.exists_isSchurForm h
  refine ⟨q, hform.basis_eq, hform.unitary, hform.isUpperTriangular, hform.dropped, ?_⟩
  have hδ : 0 ≤ 2 * Arith.epsilon * ‖a.toCMatrix‖ := by
    have := Arith.epsilon_pos
    positivity
  calc ‖a.toCMatrix - q.toCMatrix * p.matrix.toCMatrix * q.toCMatrixᴴ‖
      ≤ (n - 1 : Nat) * (2 * Arith.epsilon * ‖a.toCMatrix‖) := hform.norm_sub_le hδ
    _ = 2 * (n - 1 : Nat) * Arith.epsilon * ‖a.toCMatrix‖ := by ring

/-- Two equal eigenvalues, were it not for an entry that is negligible beside
them. -/
noncomputable def nearlyDefective : DenseMatrix 2 2 (Complex ℝ) :=
  .ofFn fun i j => if i = 1 ∧ j = 0 then .ofReal (Arith.epsilon * Arith.epsilon) else 1

theorem schur_nearlyDefective (limit : Nat) : (nearlyDefective.schur limit).value
    = .ok ⟨nearlyDefective.set 1 0 0, some .identity⟩ := by
  have hnorm : meanNorm nearlyDefective ≠ 0 := by
    rw [meanNorm_eq fun i k hi hk => by omega]
    refine div_ne_zero (norm_ne_zero_iff.2 fun h => ?_) (by norm_num)
    have := congrFun (congrFun h 0) 0
    simp [nearlyDefective, DenseMatrix.get_ofFn] at this
  have hone : ∀ i, i < 2 → nearlyDefective i i = 1 := by
    intro i hi
    rw [nearlyDefective, DenseMatrix.apply_of_lt _ hi hi, if_neg (by omega)]
  refine Similar.triangularize_of_lt (p := ⟨nearlyDefective, some .identity⟩) limit hnorm ?_
  have hweight : 2 ≤ QrState.weight ⟨⟨nearlyDefective, some .identity⟩, 0, 2, 0, 0, []⟩
      (meanNorm nearlyDefective) 0 := by
    have hepsilon : (Arith.epsilon : ℝ) ≤ 1 := Arith.epsilon_le_one
    have hpos : 0 ≤ meanNorm nearlyDefective := by
      rw [meanNorm_eq fun i k hi hk => by omega]
      positivity
    have htaxicab : (1 : Complex ℝ).taxicab = 1 := by simp [Complex.taxicab_eq]
    simp only [QrState.weight, hone 0 (by decide), hone (0 + 1) (by decide), htaxicab]
    split_ifs with hlt
    · nlinarith
    · norm_num
  have hepsilon : (0 : ℝ) < Arith.epsilon := Arith.epsilon_pos
  calc ‖(nearlyDefective 1 0).toC‖
      = Arith.epsilon * Arith.epsilon := by
        rw [nearlyDefective, DenseMatrix.apply_of_lt _ (by decide) (by decide), if_pos ⟨rfl, rfl⟩,
          Complex.toC_ofReal, Complex.norm_real, Real.norm_eq_abs, abs_of_pos (by positivity)]
    _ < Arith.epsilon * 2 :=
        mul_lt_mul_of_pos_left (Arith.epsilon_le_one.trans_lt one_lt_two) hepsilon
    _ ≤ _ := mul_le_mul_of_nonneg_left hweight hepsilon.le

theorem schur_backward_stable_nearlyDefective :
    ∃ p q, (nearlyDefective.schur defaultLimit).value = .ok p ∧ p.basis = some q ∧
      q.toCMatrix ∈ unitaryGroup (Fin 2) ℂ ∧ p.matrix 1 0 = 0 ∧
      ‖nearlyDefective.toCMatrix - q.toCMatrix * p.matrix.toCMatrix * q.toCMatrixᴴ‖
        ≤ 2 * (2 - 1 : Nat) * Arith.epsilon * ‖nearlyDefective.toCMatrix‖ := by
  have hrun := schur_nearlyDefective defaultLimit
  obtain ⟨q, hbasis, hq, hzero, -, hle⟩ :=
    schur_backward_stable nearlyDefective defaultLimit _ hrun
  exact ⟨_, q, hrun, hbasis, hq, hzero 1 0 Nat.one_lt_two Nat.zero_lt_one, hle⟩

end DenseMatrix

end DenseNumeric
