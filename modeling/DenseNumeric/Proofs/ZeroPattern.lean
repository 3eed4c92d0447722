import DenseNumeric.LinearAlgebra.Eigensystem

/-!
# Zeros that stay

Which entries of a matrix are zero while it is reduced, swept and deflated.
None of this depends on the arithmetic: a zero is written, and from then on
the entry is left alone. So everything here holds for every `Arith`, with no
law asked for, and rounding has no part in it.

Each step has an entry formula, and from it what the step leaves untouched.
`Reduction.induction` and `QrState.run_induction` are the two inductions that
this library needs: what every row step keeps, the reduction keeps, and what
every step of a run keeps, the run keeps.
-/

namespace DenseNumeric

variable {R : Type} [Arith R] {n : Nat}

/-! ## Patterns -/

namespace DenseMatrix

/-- The rows from `m` on have zeros left of their subdiagonal entries. -/
def IsHessenbergFrom (a : DenseMatrix n n (Complex R)) (m : Nat) : Prop :=
  ∀ i k, m ≤ i → i < n → k + 1 < i → a i k = 0

/-- Zeros below the first subdiagonal. -/
def IsHessenberg (a : DenseMatrix n n (Complex R)) : Prop :=
  ∀ i k, i < n → k + 1 < i → a i k = 0

/-- Zeros below the diagonal. -/
def IsUpperTriangular (a : DenseMatrix n n (Complex R)) : Prop :=
  ∀ i k, i < n → k < i → a i k = 0

/-- Zeros below the first subdiagonal, but for an entry two below the diagonal
in column `r`, provided that it is above row `high`. -/
def HasBulge (a : DenseMatrix n n (Complex R)) (high r : Nat) : Prop :=
  ∀ i k, i < n → k + 1 < i → (i = r + 2 → k = r → high ≤ i) → a i k = 0

theorem IsHessenbergFrom.isHessenberg {a : DenseMatrix n n (Complex R)}
    (h : a.IsHessenbergFrom 2) : a.IsHessenberg :=
  fun i k hi hk => h i k (by omega) hi hk

theorem HasBulge.isHessenberg {a : DenseMatrix n n (Complex R)} {high r : Nat}
    (h : a.HasBulge high r) (hr : high ≤ r + 2) : a.IsHessenberg :=
  fun i k hi hk => h i k hi hk fun hir _ => hir ▸ hr

theorem IsHessenberg.isUpperTriangular {a : DenseMatrix n n (Complex R)} (h : a.IsHessenberg)
    (hsub : ∀ k, k + 1 < n → a (k + 1) k = 0) : a.IsUpperTriangular := by
  intro i k hi hk
  rcases Nat.lt_or_eq_of_le (Nat.succ_le_of_lt hk) with hlt | rfl
  · exact h i k hi hlt
  · exact hsub k hi

end DenseMatrix

/-! ## Loops over intervals -/

theorem range'_succ_of_le {low j : Nat} (h : low ≤ j) :
    List.range' low (j + 1 - low) = List.range' low (j - low) ++ [j] := by
  rw [Nat.succ_sub h, List.range'_1_concat, Nat.add_sub_cancel' h]

/-- What a loop upward carries from one index to the next. -/
theorem foldl_ascending {σ : Type} {f : σ → Nat → σ} {P : Nat → σ → Prop} {first count : Nat}
    {s : σ} (start : P first s)
    (step : ∀ j s, first ≤ j → j < first + count → P j s → P (j + 1) (f s j)) :
    P (first + count) ((List.range' first count).foldl f s) := by
  induction count with
  | zero => exact start
  | succ count ih =>
      rw [List.range'_1_concat, List.foldl_append]
      exact step (first + count) _ (by omega) (by omega) (ih fun j s h h' => step j s h (by omega))

/-- What a loop downward carries from one index to the next. -/
theorem foldl_descending {σ : Type} {f : σ → Nat → σ} {P : Nat → σ → Prop} {first count : Nat}
    {s : σ} (start : P (first + count) s)
    (step : ∀ j s, first ≤ j → j < first + count → P (j + 1) s → P j (f s j)) :
    P first ((List.range' first count).reverse.foldl f s) := by
  induction count generalizing s with
  | zero => exact start
  | succ count ih =>
      rw [List.range'_1_concat, List.reverse_append, List.reverse_singleton, List.singleton_append,
        List.foldl_cons]
      refine ih (step (first + count) _ (by omega) (by omega) start) fun j s h h' => ?_
      exact step j s h (by omega)

theorem getD_ofFn {α : Type} (f : Fin n → α) (x : α) {i : Nat} (h : i < n) :
    (Vector.ofFn f).getD i x = f ⟨i, h⟩ := by
  simp [Vector.getD, h]

/-! ## The reduction -/

namespace Reflection

theorem coordinate_push (order m : Nat) (f : Nat → Complex R) (x : Complex R) {k : Nat}
    (hk : k < m + 1) :
    (⟨order, ((Array.range m).map f).push x⟩ : Reflection R).coordinate k
      = if k < m then f k else x := by
  simp [coordinate, Array.getD, hk, Array.getElem_push]

theorem applyRight_apply (v : Reflection R) (a : DenseMatrix n n (Complex R)) {j k : Nat}
    (hj : j < n) (hk : k < n) :
    v.applyRight a j k =
      if j < v.order ∧ k < v.order then
        a j k - (v.sum fun l => (v.coordinate l).conj * a j l) * v.coordinate k
      else a j k := by
  rw [applyRight, DenseMatrix.get_ofFn, if_pos ⟨hj, hk⟩, getD_ofFn _ _ hj]

theorem applyLeft_apply (v : Reflection R) (cols : Nat) (a : DenseMatrix n n (Complex R))
    {k j : Nat} (hk : k < n) (hj : j < n) :
    v.applyLeft cols a k j =
      if k < v.order ∧ j < cols then
        a k j - (v.sum fun l => v.coordinate l * a l j) * (v.coordinate k).conj
      else a k j := by
  rw [applyLeft, DenseMatrix.get_ofFn, if_pos ⟨hk, hj⟩, getD_ofFn _ _ hj]

theorem order_of_ofRow? {order : Nat} {row : Nat → Complex R} {v : Reflection R} {x : Complex R}
    (h : ofRow? order row = some (v, x)) : v.order = order := by
  simp only [ofRow?] at h
  split at h
  · cases h
  · obtain ⟨rfl, -⟩ := Prod.mk.inj (Option.some.inj h)
    rfl

end Reflection

namespace Reduction

/-- The matrix with row `i` cleared left of the subdiagonal entry, which is
replaced by `x`. -/
def withRow (a : DenseMatrix n n (Complex R)) (i : Nat) (x : Complex R) :
    DenseMatrix n n (Complex R) :=
  .ofFn fun j k => if j = i ∧ k < i then (if k + 1 = i then x else 0) else a j k

theorem withRow_apply (a : DenseMatrix n n (Complex R)) (i : Nat) (x : Complex R) {j k : Nat}
    (hj : j < n) (hk : k < n) :
    withRow a i x j k = if j = i ∧ k < i then (if k + 1 = i then x else 0) else a j k := by
  rw [withRow, DenseMatrix.get_ofFn, if_pos ⟨hj, hk⟩]

theorem clearRow_of_none {r : Reduction n R} {i : Nat}
    (h : Reflection.ofRow? i (r.matrix i) = none) :
    r.clearRow i = { r with matrix := withRow r.matrix i 0 } := by
  simp only [clearRow, h]
  rfl

theorem clearRow_of_some {r : Reduction n R} {i : Nat} {v : Reflection R} {x : Complex R}
    (h : Reflection.ofRow? i (r.matrix i) = some (v, x)) :
    r.clearRow i =
      ⟨v.applyLeft n (v.applyRight (withRow r.matrix i x)), v :: r.reflections⟩ := by
  simp only [clearRow, h]
  rfl

theorem clearRow_apply (r : Reduction n R) {i j k : Nat} (hij : i ≤ j) (hj : j < n)
    (hk : k + 1 < j) : (r.clearRow i).matrix j k = if j = i then 0 else r.matrix j k := by
  have row (x : Complex R) :
      withRow r.matrix i x j k = if j = i then 0 else r.matrix j k := by
    rw [withRow_apply _ _ _ hj (by omega)]
    by_cases hji : j = i
    · rw [if_pos ⟨hji, by omega⟩, if_neg (by omega), if_pos hji]
    · rw [if_neg (fun h => hji h.1), if_neg hji]
  cases h : Reflection.ofRow? i (r.matrix i) with
  | none =>
      rw [clearRow_of_none h]
      exact row 0
  | some p =>
      obtain ⟨v, x⟩ := p
      have hv := Reflection.order_of_ofRow? h
      rw [clearRow_of_some h, Reflection.applyLeft_apply _ _ _ hj (by omega), if_neg (by omega),
        Reflection.applyRight_apply _ _ hj (by omega), if_neg (by omega)]
      exact row x

theorem clearRow_isHessenbergFrom {r : Reduction n R} {i : Nat}
    (h : r.matrix.IsHessenbergFrom (i + 1)) : (r.clearRow i).matrix.IsHessenbergFrom i := by
  intro j k hij hj hk
  rw [clearRow_apply r hij hj hk]
  split
  · rfl
  · exact h j k (by omega) hj hk

/-- What is carried from row to row, the last row first, holds when all rows
are done. -/
theorem induction {P : Nat → Reduction n R → Prop} {a : DenseMatrix n n (Complex R)}
    (start : P (max n 2) ⟨a, []⟩)
    (step : ∀ i r, 2 ≤ i → i < n → P (i + 1) r → P i (r.clearRow i)) : P 2 (ofMatrix a) := by
  have hn : 2 + (n - 2) = max n 2 := by omega
  exact foldl_descending (hn ▸ start) fun i r h h' => step i r h (by omega)

theorem ofMatrix_isHessenberg (a : DenseMatrix n n (Complex R)) :
    (ofMatrix a).matrix.IsHessenberg := by
  refine DenseMatrix.IsHessenbergFrom.isHessenberg ?_
  refine induction (P := fun i r => r.matrix.IsHessenbergFrom i) ?_ ?_
  · intro i k hi hin
    omega
  · intro i r _ _ h
    exact clearRow_isHessenbergFrom h

end Reduction

/-! ## The sweep -/

namespace Rotation

theorem rotateRows_apply (g : Rotation R) (r first : Nat) (a : DenseMatrix n n (Complex R))
    {i k : Nat} (hi : i < n) (hk : k < n) :
    g.rotateRows r first a i k =
      if first ≤ k then
        if i = r then g.c.conj * a r k + g.s.conj * a (r + 1) k
        else if i = r + 1 then g.c * a (r + 1) k - g.s * a r k
        else a i k
      else a i k := by
  rw [rotateRows, DenseMatrix.get_ofFn, if_pos ⟨hi, hk⟩]

theorem rotateCols_apply (g : Rotation R) (r last : Nat) (a : DenseMatrix n n (Complex R))
    {k j : Nat} (hk : k < n) (hj : j < n) :
    g.rotateCols r last a k j =
      if k < last then
        if j = r then g.c * a k r + g.s * a k (r + 1)
        else if j = r + 1 then g.c.conj * a k (r + 1) - g.s.conj * a k r
        else a k j
      else a k j := by
  rw [rotateCols, DenseMatrix.get_ofFn, if_pos ⟨hk, hj⟩]

end Rotation

namespace Similar

/-- A rotation touches rows `r` and `r + 1` from column `r` on, and columns
`r` and `r + 1` down to row `r + 2` and above row `high`. -/
theorem rotate_apply_of_untouched (p : Similar n R) (g : Rotation R) {r high i k : Nat}
    (hi : i < n) (hk : k < n) (hrow : k < r ∨ (i ≠ r ∧ i ≠ r + 1))
    (hcol : high ≤ i ∨ r + 3 ≤ i ∨ (k ≠ r ∧ k ≠ r + 1)) :
    (p.rotate g r high).matrix i k = p.matrix i k := by
  have rows : g.rotateRows r r p.matrix i k = p.matrix i k := by
    rw [Rotation.rotateRows_apply _ _ _ _ hi hk]
    rcases hrow with h | ⟨h, h'⟩
    · rw [if_neg (by omega)]
    · rw [if_neg h, if_neg h', ite_self]
  rw [rotate, Rotation.rotateCols_apply _ _ _ _ hi hk]
  rcases hcol with h | h | ⟨h, h'⟩
  · rw [if_neg (by omega), rows]
  · rw [if_neg (by omega), rows]
  · rw [if_neg h, if_neg h', ite_self, rows]

theorem rotate_hasBulge {p : Similar n R} (h : p.matrix.IsHessenberg) (g : Rotation R)
    (r high : Nat) : (p.rotate g r high).matrix.HasBulge high r := by
  intro i k hi hk hbulge
  rw [rotate_apply_of_untouched p g hi (by omega) (by omega) (by omega)]
  exact h i k hi hk

/-- What `chase` rotates: the matrix with the bulge already gone. -/
def flatten (g : Rotation R) (p : Similar n R) (j : Nat) : Similar n R :=
  { p with matrix := (p.matrix.set (j + 1) j ⟨g.length, 0⟩).set (j + 2) j 0 }

theorem chase_eq (high : Nat) (p : Similar n R) (j : Nat) :
    p.chase high j =
      let g := Rotation.ofPair (p.matrix (j + 1) j) (p.matrix (j + 2) j)
      (flatten g p j).rotate g (j + 1) high := rfl

theorem flatten_apply (g : Rotation R) (p : Similar n R) {j i k : Nat} (hi : i < n) (hk : k < n) :
    (flatten g p j).matrix i k =
      if i = j + 2 ∧ k = j then 0
      else if i = j + 1 ∧ k = j then ⟨g.length, 0⟩
      else p.matrix i k := by
  rw [flatten, DenseMatrix.get_set _ _ _ _ hi hk, DenseMatrix.get_set _ _ _ _ hi hk]

theorem flatten_isHessenberg {p : Similar n R} {high j : Nat} (h : p.matrix.HasBulge high j)
    (g : Rotation R) : (flatten g p j).matrix.IsHessenberg := by
  intro i k hi hk
  rw [flatten_apply g p hi (by omega)]
  split
  · rfl
  · rename_i hbulge
    rw [if_neg (by omega)]
    exact h i k hi hk fun hi' hk' => absurd ⟨hi', hk'⟩ hbulge

theorem chase_hasBulge {p : Similar n R} {high j : Nat} (h : p.matrix.HasBulge high j) :
    (p.chase high j).matrix.HasBulge high (j + 1) := by
  rw [chase_eq]
  exact rotate_hasBulge (flatten_isHessenberg h _) _ _ _

/-- What the first rotation of a sweep brings about, and every chase carries
one column on, holds when the bulge has left the block. -/
theorem sweep_induction {P : Nat → Similar n R → Prop} {p : Similar n R} {low high : Nat}
    (hblock : low + 2 ≤ high) (shift : Complex R)
    (start : P low
      (p.rotate (.ofPair (p.matrix low low - shift) (p.matrix (low + 1) low)) low high))
    (step : ∀ j p, low ≤ j → j + 2 < high → P j p → P (j + 1) (p.chase high j)) :
    P (high - 2) (p.sweep low high shift) := by
  have hhigh : low + (high - 2 - low) = high - 2 := by omega
  rw [← hhigh]
  exact foldl_ascending start fun j p h h' => step j p h (by omega)

theorem sweep_isHessenberg {p : Similar n R} {low high : Nat} (hblock : low + 2 ≤ high)
    (h : p.matrix.IsHessenberg) (shift : Complex R) :
    (p.sweep low high shift).matrix.IsHessenberg := by
  have bulge : (p.sweep low high shift).matrix.HasBulge high (high - 2) :=
    sweep_induction (P := fun j p => p.matrix.HasBulge high j) hblock shift
      (rotate_hasBulge h _ _ _) fun _ _ _ _ h => chase_hasBulge h
  exact bulge.isHessenberg (by omega)

/-- A sweep leaves the subdiagonal entries outside of its block alone. -/
theorem sweep_subdiagonal (p : Similar n R) {low high k : Nat} (hblock : low + 2 ≤ high)
    (hk : k + 1 < n) (hout : k < low ∨ high ≤ k + 1) (shift : Complex R) :
    (p.sweep low high shift).matrix (k + 1) k = p.matrix (k + 1) k := by
  refine sweep_induction
    (P := fun _ (q : Similar n R) => q.matrix (k + 1) k = p.matrix (k + 1) k) hblock shift ?_ ?_
  · exact rotate_apply_of_untouched p _ hk (by omega) (by omega) (by omega)
  · intro j q hj hj' h
    rw [chase_eq]
    dsimp only
    rw [rotate_apply_of_untouched _ _ hk (by omega) (by omega) (by omega),
      flatten_apply _ _ hk (by omega), if_neg (by omega), if_neg (by omega), h]

end Similar

/-! ## The run -/

namespace QrState

theorem run_of_lt {norm : R} {limit : Nat} {s : QrState n R}
    (h : s.high < 2 ∨ limit < s.iterations) : run norm limit s = s := by
  rw [run, dif_pos h]

theorem run_of_le {norm : R} {limit : Nat} {s : QrState n R} (hhigh : 2 ≤ s.high)
    (hits : s.iterations ≤ limit) : run norm limit s = run norm limit (s.step norm) := by
  rw [run, dif_neg (by omega)]

/-- What every step of a run keeps, the run keeps. -/
theorem run_induction {P : QrState n R → Prop} {norm : R} {limit : Nat} {s : QrState n R}
    (start : P s)
    (step : ∀ s : QrState n R, 2 ≤ s.high → s.iterations ≤ limit → P s → P (s.step norm)) :
    P (run norm limit s) := by
  induction s using run.induct norm limit with
  | case1 s h =>
      rw [run_of_lt h]
      exact start
  | case2 s h ih =>
      rw [run_of_le (by omega) (by omega)]
      exact ih (step s (by omega) (by omega) start)

/-- The matrix has Hessenberg form, and its subdiagonal entries are zero above
the block as well as below it: at `low`, and all of them from `high` on. -/
structure Decoupled (s : QrState n R) : Prop where
  isHessenberg : s.current.matrix.IsHessenberg
  one_le : 1 ≤ s.high
  high_le : s.high ≤ n
  block : s.low = 0 ∨ s.low + 2 ≤ s.high
  above : ∀ k, k + 1 = s.low → s.current.matrix (k + 1) k = 0
  below : ∀ k, s.high ≤ k + 1 → k + 1 < n → s.current.matrix (k + 1) k = 0

theorem deflate_apply (s : QrState n R) (k : Nat) {i j : Nat} (hi : i < n) (hj : j < n) :
    (s.deflate k).current.matrix i j = if i = k + 1 ∧ j = k then 0 else s.current.matrix i j :=
  DenseMatrix.get_set _ _ _ _ hi hj

namespace Decoupled

theorem start {p : Similar n R} (h : p.matrix.IsHessenberg) (hn : 1 ≤ n) :
    Decoupled (⟨p, 0, n, 0, 0, []⟩ : QrState n R) where
  isHessenberg := h
  one_le := hn
  high_le := Nat.le_refl n
  block := .inl rfl
  above k hk := absurd hk (Nat.succ_ne_zero k)
  below _ hk hk' := absurd hk' (Nat.not_lt.2 hk)

theorem low_add_two_le {s : QrState n R} (h : s.Decoupled) (hhigh : 2 ≤ s.high) :
    s.low + 2 ≤ s.high := by
  rcases h.block with hlow | hblock
  · omega
  · exact hblock

theorem deflate {s : QrState n R} (h : s.Decoupled) {k : Nat} (hlow : s.low ≤ k)
    (hhigh : k + 1 < s.high) : (s.deflate k).Decoupled := by
  have hn := h.high_le
  have hlow' : (s.deflate k).low = if s.high ≤ k + 2 then 0 else k + 1 := rfl
  have hhigh' : (s.deflate k).high = if s.high ≤ k + 2 then k + 1 else s.high := rfl
  constructor
  · intro i j hi hj
    rw [deflate_apply s k hi (by omega), if_neg (by omega)]
    exact h.isHessenberg i j hi hj
  · rw [hhigh']
    split <;> omega
  · rw [hhigh']
    split <;> omega
  · rw [hlow', hhigh']
    split <;> omega
  · intro j hj
    have hjk : j = k := by
      rw [hlow'] at hj
      split at hj <;> omega
    rw [deflate_apply s k (by omega) (by omega), if_pos (by omega)]
  · intro j hj hj'
    rw [deflate_apply s k hj' (by omega)]
    split
    · rfl
    · rw [hhigh'] at hj
      refine h.below j ?_ hj'
      split at hj <;> omega

theorem sweep {s : QrState n R} (h : s.Decoupled) (hhigh : 2 ≤ s.high) (norm : R) :
    (s.sweep norm).Decoupled := by
  have hblock := h.low_add_two_le hhigh
  have hn := h.high_le
  constructor
  · exact Similar.sweep_isHessenberg hblock h.isHessenberg _
  · exact h.one_le
  · exact h.high_le
  · exact h.block
  · intro k hk
    have hk' : k + 1 = s.low := hk
    exact (Similar.sweep_subdiagonal _ hblock (by omega) (by omega) _).trans (h.above k hk)
  · intro k hk hk'
    exact (Similar.sweep_subdiagonal _ hblock hk' (.inr hk) _).trans (h.below k hk hk')

theorem step {s : QrState n R} (h : s.Decoupled) (hhigh : 2 ≤ s.high) (norm : R) :
    (s.step norm).Decoupled := by
  unfold QrState.step
  split
  · rename_i k hk
    obtain ⟨hlow, hk'⟩ := negligible?_bounds hk
    exact h.deflate hlow hk'
  · exact h.sweep hhigh norm

theorem run {s : QrState n R} (h : s.Decoupled) (norm : R) (limit : Nat) :
    (run norm limit s).Decoupled :=
  run_induction h fun _ hhigh _ h => h.step hhigh norm

theorem isUpperTriangular {s : QrState n R} (h : s.Decoupled) (hhigh : s.high < 2) :
    s.current.matrix.IsUpperTriangular :=
  h.isHessenberg.isUpperTriangular fun k hk => h.below k (by omega) hk

end Decoupled

/-! ## The outcome -/

omit [Arith R] in
theorem value_outcome_eq_ok {s : QrState n R} {p : Similar n R} (h : s.outcome.value = .ok p) :
    s.high < 2 ∧ p = s.current := by
  unfold outcome at h
  split at h
  · exact ⟨‹_›, (Except.ok.inj h).symm⟩
  · cases h

end QrState

/-- A triangular form is the matrix itself, where no run is made, or what a run
has come to. -/
theorem Similar.value_triangularize_eq_ok {p t : Similar n R} {limit : Nat}
    (h : (p.triangularize limit).value = .ok t) :
    (n ≤ 1 ∨ (meanNorm p.matrix == 0) = true) ∧ t = p ∨
      1 < n ∧ (meanNorm p.matrix == 0) = false ∧
        let s := QrState.run (meanNorm p.matrix) limit ⟨p, 0, n, 0, 0, []⟩
        s.high < 2 ∧ t = s.current := by
  simp only [triangularize, Bool.or_eq_true, decide_eq_true_eq] at h
  split at h
  · rename_i hquiet
    exact .inl ⟨hquiet, (Except.ok.inj h).symm⟩
  · rename_i hrun
    rw [not_or, Bool.not_eq_true] at hrun
    exact .inr ⟨Nat.not_le.1 hrun.1, hrun.2, QrState.value_outcome_eq_ok h⟩

end DenseNumeric
