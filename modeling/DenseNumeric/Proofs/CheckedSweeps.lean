import DenseNumeric.Proofs.CheckedLoops
import DenseNumeric.Proofs.RunLength

/-!
# Sweeps within bounds

The iteration to triangular form, carried out in place: rotations go through
ranges of columns and rows, the shift is looked up in the last two rows of the
block, and the run goes from block to block.

Every index lies in the matrix as long as the block does, and the block has
two rows or more whenever something is looked up in it (`QrState.IsWithin`).
Nothing else is needed: the entries may be any, and so may the arithmetic.
-/

namespace DenseNumeric

variable {R : Type} [Arith R] {n : Nat}

/-! ## The block -/

namespace QrState

/-- The block ends within the matrix, and has two rows or more unless it
starts with the first one. -/
structure IsWithin {R : Type} {n : Nat} (s : QrState n R) : Prop where
  block : s.low = 0 ∨ s.low + 2 ≤ s.high
  high_le : s.high ≤ n

namespace IsWithin

variable {s : QrState n R} {norm : R} {limit : Nat}

omit [Arith R] in
theorem start (p : Similar n R) : IsWithin ⟨p, 0, n, 0, 0, []⟩ where
  block := .inl rfl
  high_le := Nat.le_refl n

omit [Arith R] in
theorem low_add_two_le (h : s.IsWithin) (hhigh : 2 ≤ s.high) : s.low + 2 ≤ s.high := by
  have := h.block
  omega

theorem deflate (h : s.IsWithin) {k : Nat} (hhigh : k + 1 < s.high) :
    (s.deflate k).IsWithin where
  block := by
    simp only [QrState.deflate]
    split <;> omega
  high_le := by
    have := h.high_le
    simp only [QrState.deflate]
    split <;> omega

theorem sweep (h : s.IsWithin) : (s.sweep norm).IsWithin := ⟨h.block, h.high_le⟩

theorem step (h : s.IsWithin) : (s.step norm).IsWithin := by
  unfold QrState.step
  split
  · next k hk =>
      exact h.deflate (negligible?_bounds hk).2
  · exact h.sweep

theorem after (h : s.IsWithin) (norm : R) (t : Nat) : (s.after norm t).IsWithin := by
  induction t with
  | zero => exact h
  | succ t ih =>
      rw [after_succ]
      exact ih.step

end IsWithin

end QrState

namespace Checked

open DenseMatrix

/-! ## Rotations -/

/-- Combines rows `r` and `r + 1`, in the columns from `first` to before `last`. -/
def rotateRows (g : Rotation R) (r first last : Nat) (a : DenseMatrix n n (Complex R)) :
    Checked (DenseMatrix n n (Complex R)) :=
  loop first last a fun a k => do
    let x ← entry a r k
    let y ← entry a (r + 1) k
    let a ← update a r k (g.c.conj * x + g.s.conj * y)
    update a (r + 1) k (g.c * y - g.s * x)

/-- Combines columns `r` and `r + 1`, in the rows from `first` to before `last`. -/
def rotateCols (g : Rotation R) (r first last : Nat) (a : DenseMatrix n n (Complex R)) :
    Checked (DenseMatrix n n (Complex R)) :=
  loop first last a fun a k => do
    let x ← entry a k r
    let y ← entry a k (r + 1)
    let a ← update a k r (g.c * x + g.s * y)
    update a k (r + 1) (g.c.conj * y - g.s.conj * x)

def rotate (p : Similar n R) (g : Rotation R) (r high : Nat) : Checked (Similar n R) := do
  let a ← rotateRows g r r n p.matrix
  let a ← rotateCols g r 0 (min high (r + 3)) a
  let q ← p.basis.mapM (rotateCols g r 0 n)
  return ⟨a, q⟩

def chase (high : Nat) (p : Similar n R) (j : Nat) : Checked (Similar n R) := do
  let a := p.matrix
  let g := Rotation.ofPair (← entry a (j + 1) j) (← entry a (j + 2) j)
  let a ← update a (j + 1) j ⟨g.length, 0⟩
  let a ← update a (j + 2) j 0
  rotate { p with matrix := a } g (j + 1) high

def sweep (p : Similar n R) (low high : Nat) (shift : Complex R) : Checked (Similar n R) := do
  let g := Rotation.ofPair ((← entry p.matrix low low) - shift) (← entry p.matrix (low + 1) low)
  loop low (high - 2) (← rotate p g low high) (chase high)

/-! ## The iteration -/

/-- The entries of the block of two rows before `high`, as a matrix. -/
def wilkinsonShift (a : DenseMatrix n n (Complex R)) (high : Nat) : Checked (Complex R) := do
  let i ← sub high 2
  let j ← sub high 1
  let p ← entry a i i
  let b ← entry a i j
  let c ← entry a j i
  let d ← entry a j j
  let block : DenseMatrix 2 2 (Complex R) :=
    .ofFn fun i j => if i = 0 then if j = 0 then p else b else if j = 0 then c else d
  return DenseNumeric.wilkinsonShift block 2

def shift (s : QrState n R) (norm : R) : Checked (Complex R) := do
  let a := s.current.matrix
  match s.iterations % 30 with
  | 10 => entry a (← sub s.high 1) (← sub s.high 2)
  | 20 => return .ofReal (← entry a (← sub s.high 1) (← sub s.high 2)).magnitude
  | 29 => return .ofReal norm
  | _ => wilkinsonShift a s.high

def negligible? (s : QrState n R) (norm : R) : Checked (Option Nat) :=
  let a := s.current.matrix
  (List.range' s.low (s.high - 1 - s.low)).findM? fun k => do
    let neighbours := (← entry a k k).taxicab + (← entry a (k + 1) (k + 1)).taxicab
    let weight := if neighbours < Arith.epsilon * norm then norm else neighbours
    return decide ((← entry a (k + 1) k).magnitude < Arith.epsilon * weight)

def step (s : QrState n R) (norm : R) : Checked (QrState n R) := do
  match ← negligible? s norm with
  | some k =>
    let a ← update s.current.matrix (k + 1) k 0
    return { s.deflate k with current := { s.current with matrix := a } }
  | none =>
    let p ← sweep s.current s.low s.high (← shift s norm)
    return { s.sweep norm with current := p }

/-- The bound on the steps that are left is looked at after every step. -/
def run (norm : R) (limit : Nat) (s : QrState n R) : Checked (QrState n R) :=
  if s.high < 2 ∨ limit < s.iterations then return s
  else do
    let next ← step s norm
    if next.remaining limit < s.remaining limit then run norm limit next
    else throw .unreachable
termination_by s.remaining limit

def meanNorm (a : DenseMatrix n n (Complex R)) : Checked R := do
  let length ← loop 0 n (0 : R) fun acc x => loop 0 (min (x + 2) n) acc fun acc y => do
    return Arith.hypot acc (← entry a y x).magnitude
  return length / (n : R)

def triangularize (p : Similar n R) (limit : Nat) :
    Checked (Logged R (Except Error (Similar n R))) := do
  if n = 1 then return .quiet (.ok p)
  let norm ← meanNorm p.matrix
  if norm == 0 then return .quiet (.ok p)
  return (← run norm limit ⟨p, 0, n, 0, 0, []⟩).outcome

/-! ## Rotations -/

theorem rotateRows_eq (g : Rotation R) {r : Nat} (hr : r + 1 < n)
    (a : DenseMatrix n n (Complex R)) : rotateRows g r r n a = .ok (g.rotateRows r r a) := by
  refine loop_overlay (fun k _ j => r ≤ j ∧ j < k) (by omega) ?_ ?_ ?_
  · intro i j _ _ hdone
    omega
  · intro i j hi hj hdone
    rw [Rotation.rotateRows_apply _ _ _ _ hi hj, if_neg (by omega)]
  · intro k hk hlt
    simp only [entry_eq, update_eq, hlt, hr, Nat.lt_of_succ_lt hr, ok_bind]
    congr 1
    refine ext_of_get fun i j hi hj => ?_
    simp only [get_set, get_overlay, hi, hj, Rotation.rotateRows_apply]
    grind

theorem rotateCols_eq (g : Rotation R) {r last : Nat} (hr : r + 1 < n) (hlast : last ≤ n)
    (a : DenseMatrix n n (Complex R)) :
    rotateCols g r 0 last a = .ok (g.rotateCols r last a) := by
  refine loop_overlay (fun k i _ => i < k) (Nat.zero_le _) ?_ ?_ ?_
  · intro i j _ _ hdone
    omega
  · intro i j hi hj hdone
    rw [Rotation.rotateCols_apply _ _ _ _ hi hj, if_neg hdone]
  · intro k _ hlt
    have hk : k < n := by omega
    simp only [entry_eq, update_eq, hk, hr, Nat.lt_of_succ_lt hr, ok_bind]
    congr 1
    refine ext_of_get fun i j hi hj => ?_
    simp only [get_set, get_overlay, hi, hj, Rotation.rotateCols_apply]
    grind

theorem rotate_eq (p : Similar n R) (g : Rotation R) {r high : Nat} (hr : r + 1 < n)
    (hhigh : high ≤ n) : rotate p g r high = .ok (p.rotate g r high) := by
  have hbasis : p.basis.mapM (rotateCols g r 0 n) = .ok (p.basis.map (g.rotateCols r n)) :=
    option_mapM_eq_ok fun q _ => rotateCols_eq g hr (Nat.le_refl n) q
  rw [rotate, rotateRows_eq g hr, ok_bind, rotateCols_eq g hr (by omega), ok_bind, hbasis]
  rfl

theorem chase_eq (p : Similar n R) {high j : Nat} (hj : j + 2 < high) (hhigh : high ≤ n) :
    chase high p j = .ok (p.chase high j) := by
  have h0 : j < n := by omega
  have h1 : j + 1 < n := by omega
  have h2 : j + 2 < n := by omega
  simp only [chase, entry_eq, update_eq, h0, h1, h2, ok_bind]
  exact rotate_eq _ _ h2 hhigh

theorem sweep_eq (p : Similar n R) {low high : Nat} (hlow : low + 2 ≤ high) (hhigh : high ≤ n)
    (shift : Complex R) : sweep p low high shift = .ok (p.sweep low high shift) := by
  have h0 : low < n := by omega
  have h1 : low + 1 < n := by omega
  simp only [sweep, entry_eq, h0, h1, ok_bind, rotate_eq _ _ h1 hhigh]
  exact loop_eq_foldl fun p j _ hj => chase_eq p (by omega) hhigh

/-! ## The iteration -/

theorem wilkinsonShift_eq (a : DenseMatrix n n (Complex R)) {high : Nat} (hhigh : 2 ≤ high)
    (hle : high ≤ n) : wilkinsonShift a high = .ok (DenseNumeric.wilkinsonShift a high) := by
  have hi : high - 2 < n := by omega
  have hj : high - 1 < n := by omega
  simp only [wilkinsonShift, sub_eq_ok hhigh, sub_eq_ok (Nat.le_of_succ_le hhigh), entry_eq, hi, hj,
    ok_bind]
  simp only [DenseNumeric.wilkinsonShift, get_ofFn]
  rfl

theorem shift_eq {s : QrState n R} (hhigh : 2 ≤ s.high) (hle : s.high ≤ n) (norm : R) :
    shift s norm = .ok (s.shift norm) := by
  have hi : s.high - 2 < n := by omega
  have hj : s.high - 1 < n := by omega
  have hsub := sub_eq_ok hhigh
  have hsub' := sub_eq_ok (Nat.le_of_succ_le hhigh)
  have hlast : entry s.current.matrix (s.high - 1) (s.high - 2) = .ok _ := entry_eq hj hi
  unfold shift QrState.shift
  simp only [hsub, hsub', hlast, ok_bind, wilkinsonShift_eq _ hhigh hle]
  generalize s.iterations % 30 = k
  by_cases h10 : k = 10
  · rw [h10]
    rfl
  by_cases h20 : k = 20
  · rw [h20]
    rfl
  by_cases h29 : k = 29
  · rw [h29]
    rfl
  simp only

theorem negligible?_eq {s : QrState n R} (hle : s.high ≤ n) (norm : R) :
    negligible? s norm = .ok (s.negligible? norm) := by
  refine findM?_eq_ok fun k hk => ?_
  have hk := List.mem_range'_1.1 hk
  have h0 : k < n := by omega
  have h1 : k + 1 < n := by omega
  simp only [entry_eq, h0, h1, ok_bind]
  rfl

theorem step_eq {s : QrState n R} (h : s.IsWithin) (hhigh : 2 ≤ s.high) (norm : R) :
    step s norm = .ok (s.step norm) := by
  have hlow := h.low_add_two_le hhigh
  rw [step, negligible?_eq h.high_le, ok_bind, QrState.step]
  cases hk : s.negligible? norm with
  | some k =>
      obtain ⟨-, hlt⟩ := QrState.negligible?_bounds hk
      have hle := h.high_le
      simp only
      rw [update_eq (by omega) (by omega)]
      rfl
  | none =>
      rw [shift_eq hhigh h.high_le, ok_bind, sweep_eq _ hlow h.high_le]
      rfl

theorem run_eq {s : QrState n R} (h : s.IsWithin) (norm : R) (limit : Nat) :
    run norm limit s = .ok (s.run norm limit) := by
  induction s using QrState.run.induct norm limit with
  | case1 s hstop =>
      rw [run, if_pos hstop, QrState.run_of_lt hstop]
      rfl
  | case2 s hstop ih =>
      have hlt : (s.step norm).remaining limit < s.remaining limit :=
        QrState.remaining_step_lt norm (by omega)
      rw [run, if_neg hstop, step_eq h (by omega), ok_bind, if_pos hlt, ih h.step,
        ← QrState.run_of_le (by omega) (by omega)]

theorem meanNorm_eq (a : DenseMatrix n n (Complex R)) :
    meanNorm a = .ok (DenseNumeric.meanNorm a) := by
  have hcol (acc : R) {x : Nat} (hx : x < n) :
      loop 0 (min (x + 2) n) acc (fun acc y => do
          return Arith.hypot acc (← entry a y x).magnitude)
        = .ok ((List.range (min (x + 2) n)).foldl
          (fun acc y => Arith.hypot acc (a y x).magnitude) acc) := by
    rw [List.range_eq_range']
    refine loop_eq_foldl fun acc y _ hy => ?_
    rw [entry_eq (by omega) hx]
    rfl
  have hlength : loop 0 n (0 : R) (fun acc x => loop 0 (min (x + 2) n) acc fun acc y => do
          return Arith.hypot acc (← entry a y x).magnitude)
        = .ok (lengthOf ((List.range n).flatMap fun j =>
          (List.range (min (j + 2) n)).map (a · j))) := by
    rw [lengthOf, List.foldl_flatMap, List.range_eq_range']
    simp only [List.foldl_map]
    exact loop_eq_foldl fun acc x _ hx => hcol acc hx
  rw [meanNorm, hlength]
  rfl

theorem triangularize_eq (hn : 0 < n) (p : Similar n R) (limit : Nat) :
    triangularize p limit = .ok (p.triangularize limit) := by
  unfold triangularize Similar.triangularize
  by_cases hone : n = 1
  · simp only [hone, if_true]
    rfl
  · have hle : ¬n ≤ 1 := by omega
    simp only [hone, hle, if_false, meanNorm_eq, ok_bind, decide_false, Bool.false_or]
    by_cases hzero : DenseNumeric.meanNorm p.matrix == 0
    · simp only [hzero, if_true]
      rfl
    · simp only [hzero, if_false, Bool.false_eq_true, run_eq (.start p), ok_bind]
      rfl

end Checked

end DenseNumeric
