import DenseNumeric.LinearAlgebra.Eigensystem
import DenseNumeric.Proofs.CheckedReduction
import DenseNumeric.Proofs.CheckedSubstitution
import DenseNumeric.Proofs.CheckedSweeps

/-!
# Eigenvalues and eigenvectors within bounds

Products, lengths and the eigensystem itself, put together from the reduction,
the sweeps and the substitution. The matrix has one row at least; otherwise no
entry, shape or option makes a difference.
-/

namespace DenseNumeric

variable {R : Type} [Arith R] {n : Nat}

namespace Checked

open DenseMatrix

/-! ## Products and lengths -/

def matmul (a b : DenseMatrix n n (Complex R)) : Checked (DenseMatrix n n (Complex R)) :=
  loop 0 n (.ofFn fun _ _ => 0) fun out i => loop 0 n out fun out k => do
    let x ← entry a i k
    if x.isZero then return out
    else loop 0 n out fun out j => do
      update out i j ((← entry out i j) + x * (← entry b k j))

def adjoint (a : DenseMatrix n n (Complex R)) : Checked (DenseMatrix n n (Complex R)) :=
  loop 0 n (.ofFn fun _ _ => 0) fun out i => loop 0 n out fun out j => do
    update out j i (← entry a i j).conj

/-- A line divided by its length, unless that is zero or undefined. -/
def normalizeLine (a : DenseMatrix n n (Complex R)) (row col : Nat → Nat) :
    Checked (DenseMatrix n n (Complex R)) := do
  let length ← loop 0 n (0 : R) fun acc k => do
    return Arith.hypot acc (← entry a (row k) (col k)).magnitude
  if 0 < length then divideLine a row col 0 n length else return a

def normalizeColumns (a : DenseMatrix n n (Complex R)) : Checked (DenseMatrix n n (Complex R)) :=
  loop 0 n a fun a j => normalizeLine a (fun k => k) fun _ => j

def normalizeRows (a : DenseMatrix n n (Complex R)) : Checked (DenseMatrix n n (Complex R)) :=
  loop 0 n a fun a i => normalizeLine a (fun _ => i) fun k => k

def diagonal (a : DenseMatrix n n (Complex R)) : Checked (List (Complex R)) :=
  (List.range n).mapM fun i => entry a i i

/-! ## The eigensystem -/

def eigensystemOf (p : Similar n R) (options : EigenOptions) : Checked (Eigensystem n R) := do
  let values ← diagonal p.matrix
  let left ← if options.left then
      p.basis.mapM fun q => do
        normalizeRows (← matmul (← leftEigenvectors p.matrix) (← adjoint q))
    else pure none
  let right ← if options.right then
      p.basis.mapM fun q => do normalizeColumns (← matmul q (← rightEigenvectors p.matrix))
    else pure none
  return ⟨values, left, right⟩

def eigensystem (a : DenseMatrix n n (Complex R)) (options : EigenOptions) :
    Checked (Logged R (Except Error (Eigensystem n R))) := do
  if n = 1 then
    return .quiet (.ok {
      values := ← diagonal a
      left := if options.left then some identity else none
      right := if options.right then some identity else none })
  else
    let form ← hessenberg a (options.left || options.right)
    let run ← triangularize form options.maxIterations
    match run.value with
    | .error e => return run.andThen fun _ => .quiet (.error e)
    | .ok p =>
      let s ← eigensystemOf p options
      return run.andThen fun _ => ⟨[.eigensystem n options.left options.right], .ok s⟩

def schur (a : DenseMatrix n n (Complex R)) (limit : Nat) :
    Checked (Logged R (Except Error (Similar n R))) := do
  triangularize (← hessenberg a true) limit

/-! ## Products and lengths -/

theorem matmul_eq (a b : DenseMatrix n n (Complex R)) : matmul a b = .ok (a.mul b) := by
  let part (i j k : Nat) : Complex R := (List.range k).foldl
    (fun acc l => if (a i l).isZero then acc else acc + a i l * b l j) 0
  have hsucc (i j k : Nat) : part i j (k + 1)
      = if (a i k).isZero then part i j k else part i j k + a i k * b k j := by
    simp only [part, List.range_succ, List.foldl_concat]
  have hentry (i j : Nat) (hi : i < n) (hj : j < n) : a.mul b i j = part i j n := by
    rw [DenseMatrix.mul, get_ofFn, if_pos ⟨hi, hj⟩]
  refine loop_rows_eq fun i hi => ?_
  generalize hc : DenseMatrix.overlay (.ofFn fun _ _ => 0) (fun r _ => r < i) (a.mul b) = c
  have hzero (s : Nat) (hs : s < n) : c i s = 0 := by
    rw [← hc, get_overlay, if_neg (Nat.lt_irrefl i), get_ofFn, if_pos ⟨hi, hs⟩]
  let f (k : Nat) : DenseMatrix n n (Complex R) :=
    .ofFn fun r s => if r = i then part i s k else c r s
  have hf (k r s : Nat) (hr : r < n) (hs : s < n) :
      f k r s = if r = i then part i s k else c r s := (get_ofFn _ _ _).trans (if_pos ⟨hr, hs⟩)
  have hstart : c = f 0 := ext_of_get fun r s hr hs => by
    rw [hf 0 r s hr hs]
    split
    · next h => exact h ▸ hzero s hs
    · rfl
  have hend : f n = DenseMatrix.overlay (.ofFn fun _ _ => 0) (fun r _ => r < i + 1) (a.mul b) :=
    ext_of_get fun r s hr hs => by
      rw [hf n r s hr hs, get_overlay]
      by_cases hri : r = i
      · rw [if_pos hri, if_pos (by omega), hri, hentry i s hi hs]
      · rw [if_neg hri, ← hc, get_overlay]
        exact if_congr (by omega) rfl rfl
  rw [hstart, ← hend]
  refine loop_eq (f := f) (Nat.zero_le n) fun k _ hk => ?_
  rw [entry_eq hi hk, ok_bind]
  split
  · next hskip =>
      refine congrArg Except.ok (ext_of_get fun r s hr hs => ?_)
      rw [hf k r s hr hs, hf (k + 1) r s hr hs, hsucc, if_pos hskip]
  · next hskip =>
      refine loop_update_eq (fun _ => i) (fun j => j) (fun j => part i j (k + 1))
        (Nat.zero_le n) ?_ ?_ ?_ ?_
      · exact fun j _ hj => ⟨hi, hj⟩
      · intro c' j _ hj h
        rw [entry_eq hi hj, ok_bind, entry_eq hk hj, ok_bind, h i j (by omega),
          hf k i j hi hj, if_pos rfl, hsucc, if_neg hskip]
      · intro j _ hj
        rw [hf (k + 1) i j hi hj, if_pos rfl]
      · intro r s hr hs h
        have hri : r ≠ i := fun hri => h s (Nat.zero_le s) hs ⟨hri, rfl⟩
        rw [hf k r s hr hs, hf (k + 1) r s hr hs, if_neg hri, if_neg hri]

theorem adjoint_eq (a : DenseMatrix n n (Complex R)) : adjoint a = .ok a.adjoint := by
  refine loop_cols_eq fun i hi => ?_
  refine loop_update_eq (fun j => j) (fun _ => i) (fun j => (a i j).conj) (Nat.zero_le n)
    ?_ ?_ ?_ ?_
  · exact fun j _ hj => ⟨hj, hi⟩
  · intro c j _ hj _
    rw [entry_eq hi hj, ok_bind]
  · intro j _ hj
    rw [get_overlay, if_pos (Nat.lt_succ_self i), DenseMatrix.adjoint, get_ofFn,
      if_pos ⟨hj, hi⟩]
  · intro r s hr hs h
    have hsi : s ≠ i := fun hsi => h r (Nat.zero_le r) hr ⟨rfl, hsi⟩
    rw [get_overlay, get_overlay]
    exact if_congr (by omega) rfl rfl

theorem diagonal_eq (a : DenseMatrix n n (Complex R)) : diagonal a = .ok a.diagonal :=
  mapM_eq_ok fun _ hi => entry_eq (List.mem_range.1 hi) (List.mem_range.1 hi)

theorem normalizeLine_eq {row col : Nat → Nat} (hline : IsLine n row col)
    {a b : DenseMatrix n n (Complex R)} {length : R}
    (hlength : lengthOf ((List.range n).map fun k => a (row k) (col k)) = length)
    (hnew : ∀ k < n, b (row k) (col k)
      = if 0 < length then (a (row k) (col k)).divReal length else a (row k) (col k))
    (hold : ∀ r s, r < n → s < n → (∀ k < n, ¬(r = row k ∧ s = col k)) → b r s = a r s) :
    normalizeLine a row col = .ok b := by
  have hloop : loop 0 n (0 : R) (fun acc k => do
      return Arith.hypot acc (← entry a (row k) (col k)).magnitude) = .ok length := by
    rw [← hlength, lengthOf, List.foldl_map, List.range_eq_range']
    refine loop_eq_foldl fun acc k _ hk => ?_
    rw [entry_eq (hline.lt k hk).1 (hline.lt k hk).2]
    rfl
  rw [normalizeLine, hloop, ok_bind]
  split
  · next hpos =>
      obtain ⟨b', hb', hnew', hold'⟩ := divideLine_eq hline (Nat.zero_le n) (Nat.le_refl n) a length
      rw [hb']
      refine congrArg Except.ok (ext_of_get fun r s hr hs => ?_)
      by_cases hrs : ∃ k < n, r = row k ∧ s = col k
      · obtain ⟨k, hk, rfl, rfl⟩ := hrs
        rw [hnew k hk, if_pos hpos, hnew' k (Nat.zero_le k) hk]
      · have hne (k : Nat) (hk : k < n) (h : r = row k ∧ s = col k) : False := hrs ⟨k, hk, h⟩
        rw [hold r s hr hs hne, hold' r s hr hs fun k _ hk => hne k hk]
  · next hneg =>
      refine congrArg Except.ok (ext_of_get fun r s hr hs => ?_)
      by_cases hrs : ∃ k < n, r = row k ∧ s = col k
      · obtain ⟨k, hk, rfl, rfl⟩ := hrs
        rw [hnew k hk, if_neg hneg]
      · exact (hold r s hr hs fun k hk h => hrs ⟨k, hk, h⟩).symm

theorem normalizeColumns_eq (a : DenseMatrix n n (Complex R)) :
    normalizeColumns a = .ok a.normalizeColumns := by
  refine loop_cols_eq fun j hj => ?_
  have hold (r s : Nat) (hs : ¬s < j) :
      (a.overlay (fun _ s => s < j) a.normalizeColumns) r s = a r s := by
    rw [get_overlay, if_neg hs]
  refine normalizeLine_eq (isLine_col hj) rfl ?_ ?_
  · intro k hk
    simp only [hold _ j (Nat.lt_irrefl j)]
    rw [get_overlay, if_pos (Nat.lt_succ_self j), DenseMatrix.normalizeColumns, get_ofFn,
      if_pos ⟨hk, hj⟩, getD_ofFn _ _ hj]
  · intro r s hr hs h
    have hsj : s ≠ j := fun hsj => h r hr ⟨rfl, hsj⟩
    rw [get_overlay, get_overlay]
    exact if_congr (by omega) rfl rfl

theorem normalizeRows_eq (a : DenseMatrix n n (Complex R)) :
    normalizeRows a = .ok a.normalizeRows := by
  refine loop_rows_eq fun i hi => ?_
  have hold (r s : Nat) (hr : ¬r < i) :
      (a.overlay (fun r _ => r < i) a.normalizeRows) r s = a r s := by
    rw [get_overlay, if_neg hr]
  refine normalizeLine_eq (isLine_row hi) rfl ?_ ?_
  · intro k hk
    simp only [hold i _ (Nat.lt_irrefl i)]
    rw [get_overlay, if_pos (Nat.lt_succ_self i), DenseMatrix.normalizeRows, get_ofFn,
      if_pos ⟨hi, hk⟩, getD_ofFn _ _ hi]
  · intro r s hr hs h
    have hri : r ≠ i := fun hri => h s hs ⟨hri, rfl⟩
    rw [get_overlay, get_overlay]
    exact if_congr (by omega) rfl rfl

/-! ## The eigensystem -/

theorem schur_eq (hn : 0 < n) (a : DenseMatrix n n (Complex R)) (limit : Nat) :
    schur a limit = .ok (a.schur limit) := by
  rw [schur, hessenberg_eq hn, ok_bind, triangularize_eq hn]
  rfl

variable (hn : 0 < n) (hone : ((1 : R) == 1) = true)
include hn hone

theorem eigensystemOf_eq (p : Similar n R) (options : EigenOptions) :
    eigensystemOf p options = .ok (DenseMatrix.eigensystemOf p options) := by
  have hleft (q : DenseMatrix n n (Complex R)) : (do
        normalizeRows (← matmul (← leftEigenvectors p.matrix) (← adjoint q)))
      = .ok (p.matrix.leftEigenvectors.mul q.adjoint).normalizeRows := by
    rw [leftEigenvectors_eq hn hone, ok_bind, adjoint_eq, ok_bind, matmul_eq, ok_bind,
      normalizeRows_eq]
  have hright (q : DenseMatrix n n (Complex R)) : (do
        normalizeColumns (← matmul q (← rightEigenvectors p.matrix)))
      = .ok (q.mul p.matrix.rightEigenvectors).normalizeColumns := by
    rw [rightEigenvectors_eq hn hone, ok_bind, matmul_eq, ok_bind, normalizeColumns_eq]
  have hleft' := option_mapM_eq_ok (o := p.basis) fun q _ => hleft q
  have hright' := option_mapM_eq_ok (o := p.basis) fun q _ => hright q
  rw [eigensystemOf, diagonal_eq, ok_bind, hleft', hright', DenseMatrix.eigensystemOf]
  cases options.left <;> cases options.right <;> rfl

theorem eigensystem_eq (a : DenseMatrix n n (Complex R)) (options : EigenOptions) :
    eigensystem a options = .ok (a.eigensystem options) := by
  rw [eigensystem, DenseMatrix.eigensystem]
  split
  · rw [diagonal_eq]
    rfl
  · simp only [hessenberg_eq hn, triangularize_eq hn, ok_bind]
    generalize (a.hessenberg (options.left || options.right)).triangularize options.maxIterations
      = run
    obtain ⟨records, value⟩ := run
    cases value with
    | error e => rfl
    | ok p =>
        simp only [eigensystemOf_eq hn hone]
        rfl

end Checked

end DenseNumeric
