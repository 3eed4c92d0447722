import DenseNumeric.Proofs.RequestedVectors

/-!
# The limit of sweeps

A run takes the same steps whatever its limit is, as the limit is compared
with and nothing else. `QrState.run_eq_of_le` is that comparison of two runs,
step by step: up to the first state that ends the shorter run they are one,
and if that state has come to a triangular form it ends the longer run too.
So a greater limit changes neither a result nor its records, and an array
whose run gives up under a greater limit gives up under a smaller one.
-/

namespace DenseNumeric

section Runs

variable {R : Type} [Arith R] {n : Nat} {limit limit' : Nat}

namespace QrState

/-- A run that is not given up is the same with a greater limit. -/
theorem run_eq_of_le (hle : limit ≤ limit') {norm : R} {s : QrState n R}
    (h : (run norm limit s).high < 2) : run norm limit' s = run norm limit s := by
  induction s using run.induct norm limit with
  | case1 s hstop =>
      rw [run_of_lt hstop] at h ⊢
      exact run_of_lt (.inl h)
  | case2 s hgo ih =>
      have hhigh : 2 ≤ s.high := by omega
      have hits : s.iterations ≤ limit := by omega
      rw [run_of_le hhigh hits] at h ⊢
      rw [run_of_le hhigh (Nat.le_trans hits hle)]
      exact ih h

theorem iterations_step_le {s : QrState n R} (norm : R) (hits : s.iterations ≤ limit) :
    (s.step norm).iterations ≤ limit + 1 := by
  unfold step
  split
  · exact Nat.zero_le _
  · exact Nat.succ_le_succ hits

/-- A run that is given up has taken one sweep more than its limit. -/
theorem iterations_run {norm : R} {s : QrState n R} (hits : s.iterations ≤ limit + 1)
    (h : 2 ≤ (run norm limit s).high) : (run norm limit s).iterations = limit + 1 := by
  induction s using run.induct norm limit with
  | case1 s hstop =>
      rw [run_of_lt hstop] at h ⊢
      omega
  | case2 s hgo ih =>
      rw [run_of_le (by omega) (by omega)] at h ⊢
      exact ih (iterations_step_le norm (by omega)) h

end QrState

namespace Similar

variable {p : Similar n R}

theorem triangularize_eq_of_le (hle : limit ≤ limit') {t : Similar n R}
    (h : (p.triangularize limit).value = .ok t) :
    p.triangularize limit' = p.triangularize limit := by
  by_cases hquiet : (decide (n ≤ 1) || meanNorm p.matrix == 0) = true
  · rw [triangularize, triangularize, if_pos hquiet, if_pos hquiet]
  · rw [triangularize, if_neg hquiet] at h
    rw [triangularize, triangularize, if_neg hquiet, if_neg hquiet,
      QrState.run_eq_of_le hle (QrState.value_outcome_eq_ok h).1]

theorem error_of_triangularize {e : Error} (h : (p.triangularize limit).value = .error e) :
    e = .noConvergence (limit + 1) := by
  unfold triangularize at h
  dsimp only at h
  split at h
  · cases h
  · unfold QrState.outcome at h
    split at h
    · cases h
    · next hhigh =>
        obtain rfl := Except.error.inj h
        rw [QrState.iterations_run (Nat.zero_le _) (Nat.not_lt.1 hhigh)]

end Similar

namespace DenseMatrix

variable {a : DenseMatrix n n (Complex R)} {left right : Bool}

theorem eigensystem_eq_of_le (hle : limit ≤ limit') {s : Eigensystem n R}
    (h : (a.eigensystem ⟨left, right, limit⟩).value = .ok s) :
    a.eigensystem ⟨left, right, limit'⟩ = a.eigensystem ⟨left, right, limit⟩ := by
  by_cases hn : n = 1
  · rw [eigensystem, eigensystem, if_pos hn, if_pos hn]
  · rw [eigensystem_of_ne_one hn] at h
    obtain ⟨p, hp, -⟩ := map_eq_ok.1 h
    rw [eigensystem, eigensystem, if_neg hn, if_neg hn]
    dsimp only
    rw [Similar.triangularize_eq_of_le hle hp]
    rfl

theorem error_of_eigensystem {e : Error}
    (h : (a.eigensystem ⟨left, right, limit⟩).value = .error e) :
    e = .noConvergence (limit + 1) := by
  by_cases hn : n = 1
  · rw [eigensystem, if_pos hn] at h
    cases h
  · rw [eigensystem_of_ne_one hn] at h
    exact Similar.error_of_triangularize (map_eq_error.1 h)

end DenseMatrix

end Runs

namespace NumArray

variable {a : NumArray} {left right : Bool} {limit limit' : Nat}

/-- Only a run can fail to converge. -/
theorem squareOrder_ne_noConvergence (dims : List Nat) (its : Nat) :
    squareOrder dims ≠ .error (.noConvergence its) := by
  intro h
  match dims with
  | [m, n] =>
      by_cases hmn : m = n
      · simp [squareOrder, matrixDims, bind, Except.bind, hmn, pure, Except.pure] at h
      · simp [squareOrder, matrixDims, bind, Except.bind, hmn, throw, throwThe,
          MonadExceptOf.throw] at h
  | [] => cases h
  | [_] => cases h
  | _ :: _ :: _ :: _ => cases h

theorem eig_eq_of_le (hle : limit ≤ limit') {e : EigenArrays}
    (h : (a.eig ⟨left, right, limit⟩).value = .ok e) :
    a.eig ⟨left, right, limit'⟩ = a.eig ⟨left, right, limit⟩ := by
  cases hn : squareOrder a.dims with
  | error e =>
      rw [value_eig_of_error hn] at h
      cases h
  | ok n =>
      rw [value_eig_of_order hn] at h
      obtain ⟨s, hs, -⟩ := map_eq_ok.1 h
      simp only [eig, hn, DenseMatrix.eigensystem_eq_of_le hle hs]

/-- Whatever fails in a square array is the run. -/
theorem error_of_eig {n : Nat} (hn : squareOrder a.dims = .ok n) {e : Error}
    (h : (a.eig ⟨left, right, limit⟩).value = .error e) : e = .noConvergence (limit + 1) := by
  rw [value_eig_of_order hn] at h
  exact DenseMatrix.error_of_eigensystem (map_eq_error.1 h)

theorem exists_order_of_noConvergence {its : Nat}
    (h : (a.eig ⟨left, right, limit⟩).value = .error (.noConvergence its)) :
    ∃ n, squareOrder a.dims = .ok n := by
  cases hn : squareOrder a.dims with
  | error e =>
      rw [value_eig_of_error hn] at h
      obtain rfl := Except.error.inj h
      exact absurd hn (squareOrder_ne_noConvergence a.dims its)
  | ok n => exact ⟨n, rfl⟩

/-- The limit decides when to give up, and nothing else: what is found under
one limit is found, with the same records, under every greater one, and what
is given up under a limit is given up under every smaller one. -/
theorem eig_limit_mono (a : NumArray) (left right : Bool) {limit limit' : Nat}
    (hle : limit ≤ limit') :
    (∀ e, (a.eig ⟨left, right, limit⟩).value = .ok e →
      (a.eig ⟨left, right, limit'⟩).value = .ok e ∧
        (a.eig ⟨left, right, limit'⟩).records = (a.eig ⟨left, right, limit⟩).records) ∧
    ∀ its, (a.eig ⟨left, right, limit'⟩).value = .error (.noConvergence its) →
      its = limit' + 1 ∧
        (a.eig ⟨left, right, limit⟩).value = .error (.noConvergence (limit + 1)) := by
  refine ⟨fun e h => ?_, fun its h => ?_⟩
  · rw [eig_eq_of_le hle h]
    exact ⟨h, rfl⟩
  · obtain ⟨n, hn⟩ := exists_order_of_noConvergence h
    refine ⟨Error.noConvergence.inj (error_of_eig hn h), ?_⟩
    cases hsmall : (a.eig ⟨left, right, limit⟩).value with
    | ok e =>
        rw [eig_eq_of_le hle hsmall, hsmall] at h
        cases h
    | error e => rw [error_of_eig hn hsmall]

/-- A turn by a right angle, which takes one sweep. -/
def quarterTurn : NumArray := ⟨.matrix 2 2, ⟨.f64, #[0, -1, 1, 0], none⟩⟩

/-- Three coordinates that change places in a round, which takes many. -/
def threeCycle : NumArray := ⟨.matrix 3 3, ⟨.f64, #[0, 0, 1, 1, 0, 0, 0, 1, 0], none⟩⟩

theorem eig_limit_mono_quarterTurn_threeCycle :
    (1 ≤ 60 ∧ ∃ e, (quarterTurn.eig ⟨false, true, 1⟩).value = .ok e ∧
      (quarterTurn.eig ⟨false, true, 60⟩).value = .ok e ∧
      (quarterTurn.eig ⟨false, true, 60⟩).records = (quarterTurn.eig ⟨false, true, 1⟩).records) ∧
    1 ≤ 2 ∧ (threeCycle.eig ⟨false, false, 2⟩).value = .error (.noConvergence 3) ∧
      (threeCycle.eig ⟨false, false, 1⟩).value = .error (.noConvergence 2) := by
  have hfound : ∃ e, (quarterTurn.eig ⟨false, true, 1⟩).value = .ok e := by
    have h : (quarterTurn.eig ⟨false, true, 1⟩).value.isOk = true := by decide +kernel
    cases hvalue : (quarterTurn.eig ⟨false, true, 1⟩).value with
    | ok e => exact ⟨e, rfl⟩
    | error e =>
        rw [hvalue] at h
        cases h
  have hgivenUp : (threeCycle.eig ⟨false, false, 2⟩).value = .error (.noConvergence 3) := by
    decide +kernel
  obtain ⟨e, he⟩ := hfound
  exact ⟨⟨by decide, e, he, (eig_limit_mono quarterTurn false true (by decide)).1 e he⟩,
    by decide, hgivenUp, ((eig_limit_mono threeCycle false false (by decide)).2 3 hgivenUp).2⟩

end NumArray

end DenseNumeric
