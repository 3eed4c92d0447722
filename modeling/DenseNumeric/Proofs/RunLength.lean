import Mathlib.Algebra.BigOperators.Group.List.Lemmas
import Mathlib.Algebra.Order.BigOperators.Group.List
import Mathlib.Algebra.Order.Group.Nat
import Mathlib.Algebra.Order.Ring.Nat
import Mathlib.Data.Nat.Choose.Basic
import Mathlib.Logic.Function.Iterate
import DenseNumeric.Proofs.ZeroPattern

/-!
# How long a run is

A run of shifted sweeps alternates between deflations and sweeps, and the
records of its deflations say how many sweeps went into each of them. Three
counts bound it:

* a deflation makes the block smaller or moves its end up, and the block that
  ends before row `h` is deflated less than `h` times, so there are at most
  `n (n - 1) / 2` deflations in all;
* between two deflations there are at most as many sweeps as are allowed;
* a block that takes one sweep too many ends the run.

`QrState.Account` carries these counts from step to step. The matrix plays no
part in them: it may have any entries, and the arithmetic may obey no law.
-/

namespace DenseNumeric

variable {R : Type} {n : Nat}

namespace QrState

/-! ## The account -/

/-- The run goes on with another step. -/
def IsActive (limit : Nat) (s : QrState n R) : Prop :=
  2 ≤ s.high ∧ s.iterations ≤ limit

/-- The deflations that are possible yet: the block that ends before row
`high` can be cut below each of its rows but the last, from `low` on, and so
can the shorter blocks that come after it, from their first rows. -/
def deflationsLeft (s : QrState n R) : Nat :=
  s.high.choose 2 - s.low

/-- The records of deflations, each given by its column and the sweeps that
went into it. -/
def deflationRecords (ds : List (Nat × Nat)) : List (Record R) :=
  ds.map fun d => .deflation d.1 d.2

/-- What `t` steps from a matrix of order `n` have come to when `ds` are the
deflations among them. -/
structure Account (limit t : Nat) (s : QrState n R) (ds : List (Nat × Nat)) : Prop where
  records : s.records = deflationRecords ds
  steps : t = ds.length + s.sweeps
  sweeps : s.sweeps = (ds.map Prod.snd).sum + s.iterations
  allowed : ∀ d ∈ ds, d.2 ≤ limit
  iterations_le : s.iterations ≤ limit + 1
  rested : s.high < 2 → s.iterations = 0
  block : s.low = 0 ∨ s.low + 2 ≤ s.high
  deflations : ds.length + s.deflationsLeft ≤ n.choose 2
  covered : ∀ k, s.high ≤ k + 1 → k + 1 < n → ∃ its, (k, its) ∈ ds

theorem choose_two_succ_succ (m : Nat) : (m + 2).choose 2 = (m + 1) + (m + 1).choose 2 := by
  rw [Nat.choose_succ_succ, Nat.choose_one_right]

namespace Account

variable {limit t : Nat} {s : QrState n R} {ds : List (Nat × Nat)}

/-- At the start nothing was deflated or swept. -/
theorem start (p : Similar n R) (limit : Nat) : Account limit 0 ⟨p, 0, n, 0, 0, []⟩ [] where
  records := rfl
  steps := rfl
  sweeps := rfl
  allowed _ h := absurd h List.not_mem_nil
  iterations_le := Nat.zero_le _
  rested _ := rfl
  block := .inl rfl
  deflations := by simp [deflationsLeft]
  covered k hk hkn := absurd hkn (Nat.not_lt.2 hk)

theorem length_le (h : Account limit t s ds) : ds.length ≤ n.choose 2 :=
  (Nat.le_add_right _ _).trans h.deflations

/-- With two rows or more in the block, one more deflation is possible. -/
theorem length_lt (h : Account limit t s ds) (hhigh : 2 ≤ s.high) : ds.length < n.choose 2 := by
  obtain ⟨m, hm⟩ := Nat.exists_eq_add_of_le' hhigh
  have hleft : 0 < s.deflationsLeft := by
    have := h.block
    have := choose_two_succ_succ m
    rw [deflationsLeft, hm]
    omega
  have := h.deflations
  omega

/-- The sweeps that led to a deflation were allowed. -/
theorem sum_le (h : Account limit t s ds) : (ds.map Prod.snd).sum ≤ limit * ds.length := by
  have := List.sum_le_card_nsmul (ds.map Prod.snd) limit fun its hits => by
    obtain ⟨d, hd, rfl⟩ := List.mem_map.1 hits
    exact h.allowed d hd
  rwa [List.length_map, nsmul_eq_mul, Nat.cast_id, Nat.mul_comm] at this

/-- One sweep may be in excess, and then one deflation is missing. -/
theorem sweeps_le (h : Account limit t s ds) : s.sweeps ≤ limit * n.choose 2 + 1 := by
  have hsum := h.sum_le
  have hsweeps := h.sweeps
  rcases Nat.lt_or_ge s.high 2 with hhigh | hhigh
  · have := h.rested hhigh
    have := Nat.mul_le_mul_left limit h.length_le
    omega
  · have hits := h.iterations_le
    have := Nat.mul_le_mul_left limit (Nat.succ_le_of_lt (h.length_lt hhigh))
    rw [Nat.mul_succ] at this
    omega

end Account

/-! ## One step -/

variable [Arith R]

/-- After a deflation at least one deflation less is possible. -/
theorem deflationsLeft_deflate_lt {s : QrState n R} {k : Nat} (hlow : s.low ≤ k)
    (hhigh : k + 1 < s.high) : (s.deflate k).deflationsLeft < s.deflationsLeft := by
  obtain ⟨m, hm⟩ := Nat.exists_eq_add_of_le' (show 2 ≤ s.high by omega)
  have hchoose := choose_two_succ_succ m
  simp only [deflationsLeft, deflate, hm]
  split
  · obtain rfl : k = m := by omega
    omega
  · omega

namespace Account

variable {limit t k : Nat} {norm : R} {s : QrState n R} {ds : List (Nat × Nat)}

theorem deflate (h : Account limit t s ds) (hits : s.iterations ≤ limit) (hlow : s.low ≤ k)
    (hhigh : k + 1 < s.high) :
    Account limit (t + 1) (s.deflate k) (ds ++ [(k, s.iterations)]) where
  records := by
    show s.records ++ [.deflation k s.iterations] = _
    rw [h.records, deflationRecords, deflationRecords, List.map_append]
    rfl
  steps := by
    have hsteps := h.steps
    show t + 1 = (ds ++ [(k, s.iterations)]).length + s.sweeps
    rw [List.length_append, List.length_singleton]
    omega
  sweeps := by
    show s.sweeps = ((ds ++ [(k, s.iterations)]).map Prod.snd).sum + 0
    rw [h.sweeps, List.map_append, List.sum_append]
    rfl
  allowed d hd := by
    rcases List.mem_append.1 hd with hd | hd
    · exact h.allowed d hd
    · obtain rfl := List.mem_singleton.1 hd
      exact hits
  iterations_le := Nat.zero_le _
  rested _ := rfl
  block := by
    simp only [QrState.deflate]
    split <;> omega
  deflations := by
    have hdeflations := h.deflations
    have hlt := deflationsLeft_deflate_lt hlow hhigh
    rw [List.length_append, List.length_singleton]
    omega
  covered j hj hjn := by
    -- only the column just deflated can be behind the block now and not before
    by_cases hjs : s.high ≤ j + 1
    · obtain ⟨its, hmem⟩ := h.covered j hjs hjn
      exact ⟨its, List.mem_append_left _ hmem⟩
    · obtain rfl : j = k := by
        simp only [QrState.deflate] at hj
        split at hj <;> omega
      exact ⟨s.iterations, List.mem_append_right _ (List.mem_singleton.2 rfl)⟩

theorem sweep (h : Account limit t s ds) (hactive : s.IsActive limit) :
    Account limit (t + 1) (s.sweep norm) ds where
  records := h.records
  steps := by
    have hsteps := h.steps
    show t + 1 = ds.length + (s.sweeps + 1)
    omega
  sweeps := by
    have hsweeps := h.sweeps
    show s.sweeps + 1 = _ + (s.iterations + 1)
    omega
  allowed := h.allowed
  iterations_le := Nat.succ_le_succ hactive.2
  rested hhigh := absurd hactive.1 (Nat.not_le.2 hhigh)
  block := h.block
  deflations := h.deflations
  covered := h.covered

theorem step (h : Account limit t s ds) (hactive : s.IsActive limit) :
    ∃ ds', Account limit (t + 1) (s.step norm) ds' := by
  unfold QrState.step
  split
  · rename_i k hk
    obtain ⟨hlow, hhigh⟩ := negligible?_bounds hk
    exact ⟨_, h.deflate hactive.2 hlow hhigh⟩
  · exact ⟨ds, h.sweep hactive⟩

end Account

/-! ## The run -/

/-- The state after a number of steps. -/
def after (norm : R) (s : QrState n R) (t : Nat) : QrState n R :=
  (fun s : QrState n R => s.step norm)^[t] s

theorem after_succ (norm : R) (s : QrState n R) (t : Nat) :
    s.after norm (t + 1) = (s.after norm t).step norm :=
  Function.iterate_succ_apply' _ _ _

/-- A run is a number of steps from active states, up to the first state that
is not active. -/
theorem exists_run_eq_after (norm : R) (limit : Nat) (s : QrState n R) :
    ∃ t, run norm limit s = s.after norm t ∧ (∀ j < t, (s.after norm j).IsActive limit) ∧
      ¬(s.after norm t).IsActive limit := by
  induction s using run.induct norm limit with
  | case1 s h =>
      refine ⟨0, run_of_lt h, fun j hj => absurd hj (Nat.not_lt_zero j), ?_⟩
      rintro ⟨hhigh, hits⟩
      exact h.elim (Nat.not_lt.2 hhigh) (Nat.not_lt.2 hits)
  | case2 s h ih =>
      obtain ⟨t, hrun, hactive, hstop⟩ := ih
      have hs : s.IsActive limit := ⟨by omega, by omega⟩
      refine ⟨t + 1, (run_of_le hs.1 hs.2).trans hrun, ?_, hstop⟩
      intro j hj
      cases j with
      | zero => exact hs
      | succ j => exact hactive j (Nat.lt_of_succ_lt_succ hj)

/-- Steps from active states keep the account. -/
theorem Account.after {limit t : Nat} {norm : R} {s : QrState n R}
    (h : ∃ ds, Account limit 0 s ds) (hactive : ∀ j < t, (s.after norm j).IsActive limit) :
    ∃ ds, Account limit t (s.after norm t) ds := by
  induction t with
  | zero => exact h
  | succ t ih =>
      obtain ⟨ds, hds⟩ := ih fun j hj => hactive j (Nat.lt_succ_of_lt hj)
      rw [after_succ]
      exact hds.step (hactive t (Nat.lt_succ_self t))

end QrState

/-! ## The outcome -/

namespace Similar

variable [Arith R]

/-- Every run comes to an end, whatever the arithmetic returns, and its log
accounts for it. From a matrix of order `n` there are at most `n (n - 1) / 2`
deflations, and at most one sweep more than `limit` for each of them. A run
that ends with a triangular form has a deflation for each subdiagonal
position, and its sweeps are those of its deflations. A run that gives up
does so after `limit + 1` sweeps over one block. -/
theorem triangularize_account (p : Similar n R) (limit : Nat) :
    let norm := meanNorm p.matrix
    let start : QrState n R := ⟨p, 0, n, 0, 0, []⟩
    (n ≤ 1 ∨ norm == 0) ∧ p.triangularize limit = .quiet (.ok p) ∨
      ¬(n ≤ 1 ∨ norm == 0) ∧ ∃ (t : Nat) (ds : List (Nat × Nat)),
        let last := start.after norm t
        (∀ j < t, 2 ≤ (start.after norm j).high ∧ (start.after norm j).iterations ≤ limit) ∧
        (last.high < 2 ∨ limit < last.iterations) ∧ last.iterations ≤ limit + 1 ∧
        t = ds.length + last.sweeps ∧
        ds.length ≤ n * (n - 1) / 2 ∧
        last.sweeps ≤ limit * (n * (n - 1) / 2) + 1 ∧
        (p.triangularize limit =
            ⟨QrState.deflationRecords ds ++ [.converged n last.sweeps], .ok last.current⟩ ∧
          (ds.map Prod.snd).sum = last.sweeps ∧
          (∀ k, k + 1 < n → ∃ its, (k, its) ∈ ds) ∨
        p.triangularize limit =
            ⟨QrState.deflationRecords ds ++ [.gaveUp last.low last.high (limit + 1)],
              .error (.noConvergence (limit + 1))⟩ ∧
          (ds.map Prod.snd).sum + (limit + 1) = last.sweeps) := by
  intro norm start
  by_cases hquiet : n ≤ 1 ∨ norm == 0
  · refine .inl ⟨hquiet, ?_⟩
    rw [triangularize, if_pos (by simpa using hquiet)]
  · refine .inr ⟨hquiet, ?_⟩
    obtain ⟨t, hrun, hactive, hstop⟩ := start.exists_run_eq_after norm limit
    obtain ⟨ds, h⟩ : ∃ ds, QrState.Account limit t (start.after norm t) ds :=
      QrState.Account.after ⟨[], .start p limit⟩ hactive
    have houtcome : p.triangularize limit = (start.after norm t).outcome := by
      rw [triangularize, if_neg (by simpa using hquiet)]
      exact congrArg QrState.outcome hrun
    have hits := h.iterations_le
    refine ⟨t, ds, hactive, ?_, hits, h.steps, ?_, ?_, ?_⟩
    · simp only [QrState.IsActive] at hstop
      omega
    · exact Nat.choose_two_right n ▸ h.length_le
    · exact Nat.choose_two_right n ▸ h.sweeps_le
    · rcases Nat.lt_or_ge (start.after norm t).high 2 with hhigh | hhigh
      · refine .inl ⟨?_, ?_, fun k hk => h.covered k (by omega) hk⟩
        · rw [houtcome, QrState.outcome, if_pos hhigh, h.records]
        · rw [h.sweeps, h.rested hhigh, Nat.add_zero]
      · have heq : (start.after norm t).iterations = limit + 1 := by
          simp only [QrState.IsActive] at hstop
          omega
        refine .inr ⟨?_, ?_⟩
        · rw [houtcome, QrState.outcome, if_neg (Nat.not_lt.2 hhigh), h.records, heq]
        · rw [h.sweeps, heq]

end Similar

end DenseNumeric
