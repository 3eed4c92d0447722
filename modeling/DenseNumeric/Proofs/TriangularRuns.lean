import Mathlib
import DenseNumeric.Proofs.Deflation
import DenseNumeric.Proofs.ZeroSigns

/-!
# Runs with nothing to do

What becomes of a matrix that is triangular before its reduction. No row has a
reflection, so the reduction writes zeros over zeros and its basis is the
identity. A run then deflates from the last block to the first one, and again
writes zeros over zeros.

It takes one thing for a run to be like that: every zero below the diagonal must
be found negligible. The comparison is strict, so the threshold beside which it
is made has to be positive, and a product of the rounding unit with a tiny
yardstick is not. As the diagonal stays what it is, all thresholds are known in
advance; `Similar.triangularize_noSweep_iff` says that there is no sweep if and
only if all of them are positive, or there is no run.
-/

namespace DenseNumeric

open Binary

variable {n : Nat}

/-! ## Lengths of zeros -/

/-- The signs of zeros are lost in a hypotenuse. -/
theorem Binary.Alike.hypot_eq {fmt : Float.Model.Format} {u u' v v' : Float.Model.UnpackedFloat}
    (hu : Alike u u') (hv : Alike v v') : hypot fmt u v = hypot fmt u' v' := by
  cases hu with
  | refl u =>
      cases hv with
      | refl v => rfl
      | zeros s s' => cases u <;> rfl
  | zeros s s' =>
      cases hv with
      | refl v => cases v <;> rfl
      | zeros t t' => rfl

namespace Complex.Matches

variable {z w : Complex Float}

theorem magnitude_eq (h : z.Matches w) : z.magnitude = w.magnitude :=
  congrArg (fun u => Float.ofModel (.pack u))
    ((matches_iff.1 h.re).hypot_eq (matches_iff.1 h.im))

theorem magnitude_of_zero (h : z.Matches 0) : z.magnitude = 0 := by
  rw [h.magnitude_eq]
  decide +kernel

theorem taxicab_of_zero (h : z.Matches 0) : z.taxicab = 0 := by
  rw [h.taxicab_eq]
  decide +kernel

end Complex.Matches

/-! ## Zeros below the diagonal -/

namespace DenseMatrix

/-- Below the diagonal are zeros, of either sign. -/
def IsClearBelow (a : DenseMatrix n n (Complex Float)) : Prop :=
  ∀ i k, i < n → k < i → (a i k).Matches 0

/-- What a subdiagonal entry has to be smaller than, to be negligible. -/
def threshold {R : Type} [Arith R] (a : DenseMatrix n n (Complex R)) (norm : R) (k : Nat) : R :=
  let neighbours := (a k k).taxicab + (a (k + 1) (k + 1)).taxicab
  Arith.epsilon * if neighbours < Arith.epsilon * norm then norm else neighbours

/-- A norm is made of magnitudes. -/
theorem meanNorm_congr {R : Type} [Arith R] {a b : DenseMatrix n n (Complex R)}
    (h : ∀ i j, i < n → j < n → (a i j).magnitude = (b i j).magnitude) :
    meanNorm a = meanNorm b := by
  have hlength (zs : List (Complex R)) :
      lengthOf zs = (zs.map Complex.magnitude).foldl Arith.hypot 0 := List.foldl_map.symm
  have hband : ((List.range n).flatMap fun j => (List.range (min (j + 2) n)).map (a · j)).map
        Complex.magnitude
      = ((List.range n).flatMap fun j => (List.range (min (j + 2) n)).map (b · j)).map
        Complex.magnitude := by
    rw [List.map_flatMap, List.map_flatMap]
    refine List.flatMap_congr fun j hj => ?_
    rw [List.map_map, List.map_map]
    refine List.map_congr_left fun i hi => ?_
    rw [List.mem_range] at hi hj
    exact h i j (by omega) hj
  rw [meanNorm, meanNorm, hlength, hlength, hband]

end DenseMatrix

/-! ## The reduction -/

/-- A row of zeros has no reflection. -/
theorem Reflection.ofRow?_of_zeros {order : Nat} {row : Nat → Complex Float}
    (h : ∀ k < order, (row k).Matches 0) : ofRow? order row = none := by
  have hscale : Arith.sumOver (List.range order) (fun k => (row k).taxicab) = (0 : Float) := by
    rw [Arith.sumOver, List.foldl_ext (g := fun acc _ => acc + 0)]
    · generalize List.range order = ks
      induction ks with
      | nil => rfl
      | cons k ks ih => exact ih
    · intro acc k hk
      rw [(h k (List.mem_range.1 hk)).taxicab_of_zero]
  have hzero : ((0 : Float) == 0) = true := by decide +kernel
  simp only [ofRow?, hscale, hzero, Bool.true_or, if_true]

/-- The reduction of a triangular matrix makes its zeros positive, and has no
reflections. -/
theorem Reduction.ofMatrix_of_isClearBelow {a : DenseMatrix n n (Complex Float)}
    (ha : a.IsClearBelow) :
    (ofMatrix a).reflections = [] ∧ ∀ j k, j < n → k < n →
      (ofMatrix a).matrix j k = if 2 ≤ j ∧ k < j then 0 else a j k := by
  refine induction (P := fun i (r : Reduction n Float) => r.reflections = [] ∧
    ∀ j k, j < n → k < n → r.matrix j k = if i ≤ j ∧ k < j then 0 else a j k) ?_ ?_
  · refine ⟨rfl, fun j k hj _ => ?_⟩
    rw [if_neg (by omega)]
  · rintro i r - hi ⟨hreflections, hr⟩
    have hnone : Reflection.ofRow? i (r.matrix i) = none := by
      refine Reflection.ofRow?_of_zeros fun k hk => ?_
      rw [hr i k hi (by omega), if_neg (by omega)]
      exact ha i k hi hk
    rw [clearRow_of_none hnone]
    refine ⟨hreflections, fun j k hj hk => ?_⟩
    rw [withRow_apply _ _ _ hj hk, hr j k hj hk, ite_self]
    split_ifs <;> first | rfl | omega

/-! ## The run -/

/-- The sweeps that a record speaks of. -/
def Record.sweeps {R : Type} : Record R → Nat
  | deflation _ iterations => iterations
  | converged _ sweeps => sweeps
  | gaveUp _ _ iterations => iterations
  | tinyPivot _ _ _ | eigensystem _ _ _ => 0

/-- No sweep is on record. -/
def Logged.NoSweep {R α : Type} (l : Logged R α) : Prop := ∀ r ∈ l.records, r.sweeps = 0

namespace QrState

/-- So far a run from `p` has written zeros over zeros, and found everything
negligible that is behind its block. -/
structure IsAtRest (p : Similar n Float) (norm : Float) (s : QrState n Float) : Prop where
  sweeps : s.sweeps = 0
  iterations : s.iterations = 0
  records : ∀ r ∈ s.records, r.sweeps = 0
  basis : s.current.basis = p.basis
  apply : ∀ i j, i < n → j < n →
    s.current.matrix i j = p.matrix i j ∨ j < i ∧ s.current.matrix i j = 0
  block : s.low = 0 ∨ s.low + 2 ≤ s.high
  high_le : s.high ≤ n
  behind : ∀ k, s.high ≤ k + 1 → k + 1 < n → 0 < p.matrix.threshold norm k

namespace IsAtRest

variable {p : Similar n Float} {norm : Float} {s : QrState n Float} {k : Nat}

theorem start (p : Similar n Float) (norm : Float) :
    IsAtRest p norm (⟨p, 0, n, 0, 0, []⟩ : QrState n Float) where
  sweeps := rfl
  iterations := rfl
  records _ h := absurd h List.not_mem_nil
  basis := rfl
  apply _ _ _ _ := .inl rfl
  block := .inl rfl
  high_le := Nat.le_refl n
  behind _ hk hk' := absurd hk' (Nat.not_lt.2 hk)

theorem diagonal (h : IsAtRest p norm s) {i : Nat} (hi : i < n) :
    s.current.matrix i i = p.matrix i i :=
  (h.apply i i hi hi).resolve_right fun hlt => Nat.lt_irrefl i hlt.1

/-- The thresholds are those of the matrix that the run began with. -/
theorem threshold_eq (h : IsAtRest p norm s) (hk : k + 1 < n) :
    Arith.epsilon * s.yardstick norm k = p.matrix.threshold norm k := by
  rw [yardstick, DenseMatrix.threshold, h.diagonal hk, h.diagonal (by omega)]

theorem magnitude_subdiagonal (h : IsAtRest p norm s) (hp : p.matrix.IsClearBelow)
    (hk : k + 1 < n) : (s.current.matrix (k + 1) k).magnitude = 0 := by
  refine Complex.Matches.magnitude_of_zero ?_
  rcases h.apply (k + 1) k hk (by omega) with heq | ⟨-, hzero⟩
  · rw [heq]
    exact hp (k + 1) k hk (Nat.lt_succ_self k)
  · exact .of_eq hzero

/-- Only where a threshold is positive there is a deflation. -/
theorem threshold_pos (h : IsAtRest p norm s) (hp : p.matrix.IsClearBelow)
    (hk : s.negligible? norm = some k) : 0 < p.matrix.threshold norm k := by
  have hkn : k + 1 < n := (negligible?_bounds hk).2.trans_le h.high_le
  have := magnitude_lt_of_negligible? hk
  rwa [h.magnitude_subdiagonal hp hkn, h.threshold_eq hkn] at this

theorem deflate (h : IsAtRest p norm s) (hp : p.matrix.IsClearBelow)
    (hk : s.negligible? norm = some k) : IsAtRest p norm (s.deflate k) := by
  obtain ⟨hlow, hhigh⟩ := negligible?_bounds hk
  have hn := h.high_le
  have hlow' : (s.deflate k).low = if s.high ≤ k + 2 then 0 else k + 1 := rfl
  have hhigh' : (s.deflate k).high = if s.high ≤ k + 2 then k + 1 else s.high := rfl
  refine ⟨h.sweeps, rfl, fun r hr => ?_, h.basis, fun i j hi hj => ?_, ?_, ?_, fun j hj hjn => ?_⟩
  · rcases List.mem_append.1 hr with hr | hr
    · exact h.records r hr
    · obtain rfl := List.mem_singleton.1 hr
      exact h.iterations
  · rw [deflate_apply s k hi hj]
    by_cases hij : i = k + 1 ∧ j = k
    · rw [if_pos hij]
      exact .inr ⟨by omega, rfl⟩
    · rw [if_neg hij]
      exact h.apply i j hi hj
  · rw [hlow', hhigh']
    split <;> omega
  · rw [hhigh']
    split <;> omega
  · -- column `k` is behind the block now if the block has become shorter
    by_cases hjs : s.high ≤ j + 1
    · exact h.behind j hjs hjn
    · obtain rfl : j = k := by
        rw [hhigh'] at hj
        split at hj <;> omega
      exact h.threshold_pos hp hk

/-- The first step that is a sweep is the end of it. -/
theorem step (h : IsAtRest p norm s) (hp : p.matrix.IsClearBelow)
    (hsweeps : (s.step norm).sweeps = 0) : IsAtRest p norm (s.step norm) := by
  cases hk : s.negligible? norm with
  | some k =>
      rw [QrState.step, hk]
      exact h.deflate hp hk
  | none =>
      rw [QrState.step, hk] at hsweeps
      exact absurd hsweeps (Nat.succ_ne_zero _)

theorem exists_negligible (h : IsAtRest p norm s) (hp : p.matrix.IsClearBelow)
    (hhigh : 2 ≤ s.high) (hpos : ∀ k, k + 1 < n → 0 < p.matrix.threshold norm k) :
    ∃ k, s.negligible? norm = some k := by
  have hn := h.high_le
  have hblock := h.block
  have hlow : s.low + 1 < n := by omega
  rw [← Option.isSome_iff_exists, negligible?, List.find?_isSome]
  refine ⟨s.low, List.mem_range'_1.2 (by omega), decide_eq_true ?_⟩
  show (s.current.matrix (s.low + 1) s.low).magnitude < Arith.epsilon * s.yardstick norm s.low
  rw [h.magnitude_subdiagonal hp hlow, h.threshold_eq hlow]
  exact hpos s.low hlow

/-- Where all thresholds are positive, a run deflates until nothing is left. -/
theorem run (h : IsAtRest p norm s) (hp : p.matrix.IsClearBelow)
    (hpos : ∀ k, k + 1 < n → 0 < p.matrix.threshold norm k) (limit : Nat) :
    IsAtRest p norm (run norm limit s) ∧ (QrState.run norm limit s).high < 2 := by
  have hrest : IsAtRest p norm (QrState.run norm limit s) := by
    refine run_induction h fun s hhigh _ hs => ?_
    obtain ⟨k, hk⟩ := hs.exists_negligible hp hhigh hpos
    rw [QrState.step, hk]
    exact hs.deflate hp hk
  obtain ⟨t, hrun, -, hstop⟩ := s.exists_run_eq_after norm limit
  refine ⟨hrest, Nat.lt_of_not_le fun hhigh => hstop ?_⟩
  rw [← hrun]
  exact ⟨hhigh, hrest.iterations ▸ Nat.zero_le limit⟩

/-- And a run without a sweep has done nothing else. -/
theorem of_run (h : IsAtRest p norm s) (hp : p.matrix.IsClearBelow) {limit : Nat}
    (hsweeps : (QrState.run norm limit s).sweeps = 0) :
    IsAtRest p norm (QrState.run norm limit s) := by
  refine run_induction (P := fun s => s.sweeps = 0 → IsAtRest p norm s) (fun _ => h)
    (fun s _ _ hs hstep => ?_) hsweeps
  refine (hs ?_).step hp hstep
  unfold QrState.step at hstep
  split at hstep
  · exact hstep
  · exact absurd hstep (Nat.succ_ne_zero _)

end IsAtRest

end QrState

/-! ## The outcome -/

namespace Similar

variable {p : Similar n Float}

/-- No run is needed, or a run in which every zero is negligible. -/
def Rests (p : Similar n Float) : Prop :=
  (meanNorm p.matrix == 0) = true ∨
    ∀ k, k + 1 < n → 0 < p.matrix.threshold (meanNorm p.matrix) k

theorem triangularize_of_rests (hp : p.matrix.IsClearBelow) (h : p.Rests) (limit : Nat) :
    (p.triangularize limit).NoSweep ∧ ∃ t, (p.triangularize limit).value = .ok t ∧
      t.basis = p.basis ∧ ∀ i j, i < n → j < n →
        t.matrix i j = p.matrix i j ∨ j < i ∧ t.matrix i j = 0 := by
  by_cases hquiet : (decide (n ≤ 1) || meanNorm p.matrix == 0) = true
  · rw [triangularize, if_pos hquiet]
    exact ⟨fun _ hr => absurd hr List.not_mem_nil, p, rfl, rfl, fun _ _ _ _ => .inl rfl⟩
  · rw [triangularize, if_neg hquiet]
    have hpos := h.resolve_left fun hnorm => hquiet (by rw [hnorm, Bool.or_true])
    obtain ⟨hrest, hhigh⟩ := (QrState.IsAtRest.start p (meanNorm p.matrix)).run hp hpos limit
    rw [QrState.outcome, if_pos hhigh]
    refine ⟨fun r hr => ?_, _, rfl, hrest.basis, hrest.apply⟩
    rcases List.mem_append.1 hr with hr | hr
    · exact hrest.records r hr
    · obtain rfl := List.mem_singleton.1 hr
      exact hrest.sweeps

/-- A triangular form is found without a sweep under no other condition. -/
theorem triangularize_noSweep_iff (hp : p.matrix.IsClearBelow) (limit : Nat) :
    ((p.triangularize limit).NoSweep ∧ ∃ t, (p.triangularize limit).value = .ok t) ↔
      p.Rests := by
  constructor
  · rintro ⟨hrecords, t, ht⟩
    by_cases hquiet : (decide (n ≤ 1) || meanNorm p.matrix == 0) = true
    · rw [Bool.or_eq_true, decide_eq_true_eq] at hquiet
      rcases hquiet with hn | hnorm
      · exact .inr fun k hk => by omega
      · exact .inl hnorm
    · rw [triangularize, if_neg hquiet] at hrecords ht
      obtain ⟨hhigh, -⟩ := QrState.value_outcome_eq_ok ht
      rw [QrState.outcome, if_pos hhigh] at hrecords
      have hsweeps := hrecords _ (List.mem_append_right _ (List.mem_singleton.2 rfl))
      have hrest := (QrState.IsAtRest.start p (meanNorm p.matrix)).of_run hp hsweeps
      exact .inr fun k hk => hrest.behind k (by omega) hk
  · intro h
    obtain ⟨hrecords, t, ht, -⟩ := triangularize_of_rests hp h limit
    exact ⟨hrecords, t, ht⟩

end Similar

/-! ## A triangular matrix and its reduction -/

namespace DenseMatrix

variable {a : DenseMatrix n n (Complex Float)}

theorem hessenberg_of_isClearBelow (ha : a.IsClearBelow) (withBasis : Bool) :
    (a.hessenberg withBasis).basis = (if withBasis then some identity else none) ∧
      ∀ i j, i < n → j < n →
        (a.hessenberg withBasis).matrix i j = if 2 ≤ i ∧ j < i then 0 else a i j := by
  obtain ⟨hreflections, happly⟩ := Reduction.ofMatrix_of_isClearBelow ha
  refine ⟨?_, happly⟩
  simp only [hessenberg, Reduction.basis, hreflections]
  rfl

theorem isClearBelow_hessenberg (ha : a.IsClearBelow) (withBasis : Bool) :
    (a.hessenberg withBasis).matrix.IsClearBelow := by
  intro i k hi hk
  rw [(hessenberg_of_isClearBelow ha withBasis).2 i k hi (by omega)]
  split
  · exact .refl 0
  · exact ha i k hi hk

/-- Zeros below the diagonal count neither in the norm nor in a threshold. -/
theorem rests_hessenberg_iff (ha : a.IsClearBelow) (withBasis : Bool) :
    (a.hessenberg withBasis).Rests ↔ (meanNorm a == 0) = true ∨
      ∀ k, k + 1 < n → 0 < a.threshold (meanNorm a) k := by
  obtain ⟨-, happly⟩ := hessenberg_of_isClearBelow ha withBasis
  have hnorm : meanNorm (a.hessenberg withBasis).matrix = meanNorm a := by
    refine meanNorm_congr fun i j hi hj => ?_
    rw [happly i j hi hj]
    split
    · rename_i hij
      exact (ha i j hi hij.2).symm.magnitude_eq
    · rfl
  have hdiagonal (i : Nat) (hi : i < n) : (a.hessenberg withBasis).matrix i i = a i i := by
    rw [happly i i hi hi, if_neg (by omega)]
  rw [Similar.Rests, hnorm]
  refine or_congr_right (forall₂_congr fun k hk => ?_)
  rw [threshold, threshold, hdiagonal k (by omega), hdiagonal (k + 1) hk]

/-- What is found without a sweep is the matrix, with its zeros made positive,
in the basis that it is in already. -/
theorem triangularize_hessenberg_of_rests (ha : a.IsClearBelow) (withBasis : Bool)
    (h : (a.hessenberg withBasis).Rests) (limit : Nat) :
    ((a.hessenberg withBasis).triangularize limit).NoSweep ∧
      ∃ t, ((a.hessenberg withBasis).triangularize limit).value = .ok t ∧
        t.basis = (if withBasis then some identity else none) ∧
        ∀ i j, i < n → j < n → t.matrix i j = a i j ∨ j < i ∧ t.matrix i j = 0 := by
  obtain ⟨hbasis, happly⟩ := hessenberg_of_isClearBelow ha withBasis
  obtain ⟨hrecords, t, ht, htbasis, htapply⟩ :=
    Similar.triangularize_of_rests (isClearBelow_hessenberg ha withBasis) h limit
  refine ⟨hrecords, t, ht, htbasis.trans hbasis, fun i j hi hj => ?_⟩
  have hij := htapply i j hi hj
  rw [happly i j hi hj] at hij
  split at hij
  · rename_i hlow
    exact .inr ⟨hlow.2, hij.elim id And.right⟩
  · exact hij

end DenseMatrix

end DenseNumeric
