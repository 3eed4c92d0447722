import DenseNumeric.LinearAlgebra.Elimination
import DenseNumeric.Proofs.CheckedLoops
import DenseNumeric.Proofs.ZeroPattern

/-!
# Elimination within bounds

Inversion carried out in place, in one buffer that holds the matrix beside the
identity. The entries of the matrix are looked up elsewhere, and what that
gives is a parameter.

A pivot is looked for on and below the diagonal, so it is in a row of the
matrix; and it is only brought up from below, so that the buffer can be split
between the two rows that change places.
-/

namespace DenseNumeric

variable {E R : Type} [Arith R] [Entry E R] {m n : Nat}

namespace DenseMatrix

variable {a : DenseMatrix m n E}

omit [Arith R] in
theorem swapRows_self (i : Nat) : a.swapRows i i = a := by
  refine ext_of_get fun r s hr hs => ?_
  rw [swapRows, get_ofFn, if_pos ⟨hr, hs⟩]
  by_cases hri : r = i
  · rw [if_pos hri, hri]
  · rw [if_neg hri, if_neg hri]

/-- A pivot is on or below the diagonal. -/
theorem pivotRow?_bounds {pivoting : Pivoting} {c r : Nat} (hc : c < m)
    (h : a.pivotRow? pivoting c = some r) : c ≤ r ∧ r < m := by
  cases pivoting with
  | firstNonzero =>
      have := List.mem_range'_1.1 (List.mem_of_find?_eq_some h)
      omega
  | largest =>
      have hbest : ∀ (rows : List Nat) (best : Nat × R), (∀ r ∈ rows, c ≤ r ∧ r < m) →
          c ≤ best.1 ∧ best.1 < m →
          c ≤ (rows.foldl (fun best r => if best.2 < Entry.size (a r c)
            then (r, Entry.size (a r c)) else best) best).1 ∧
          (rows.foldl (fun best r => if best.2 < Entry.size (a r c)
            then (r, Entry.size (a r c)) else best) best).1 < m := by
        intro rows
        induction rows with
        | nil => exact fun _ _ h => h
        | cons r rows ih =>
            intro best hrows hbest
            refine ih _ (fun r hr => hrows r (List.mem_cons_of_mem _ hr)) ?_
            dsimp only
            split
            · exact hrows r List.mem_cons_self
            · exact hbest
      simp only [pivotRow?] at h
      split at h
      · obtain rfl := Option.some.inj h
        refine hbest _ (c, 0) (fun r hr => ?_) ⟨Nat.le_refl c, hc⟩
        have := List.mem_range'_1.1 hr
        omega
      · cases h

omit [Arith R] in
theorem clearColumn_entry (i : Nat) {r s : Nat} (hr : r < m) (hs : s < n) :
    a.clearColumn i r s =
      if r = i then a i s / a i i
      else if a r i == 0 then a r s
      else a r s - a r i * (a i s / a i i) := by
  rw [clearColumn, get_ofFn, if_pos ⟨hr, hs⟩, getD_ofFn _ _ hs]

omit [Arith R] in
/-- The entries, row by row. -/
theorem entries_eq (a : DenseMatrix m n E) :
    a.entries = (List.range m).flatMap fun i => (List.range n).map (a i) := by
  have hofFn (f : Nat → Nat → E) : (ofFn f : DenseMatrix m n E).entries
      = (List.range m).flatMap fun i => (List.range n).map (f i) := by
    rw [← @List.map_coe_finRange_eq_range m, ← @List.map_coe_finRange_eq_range n]
    simp only [entries, ofFn, Vector.toList_ofFn, List.ofFn_eq_map, List.flatMap_map,
      List.map_map]
    rfl
  have ha : a = ofFn a := ext_of_get fun i j hi hj => by rw [get_ofFn, if_pos ⟨hi, hj⟩]
  conv_lhs => rw [ha]
  exact hofFn a

end DenseMatrix

namespace Checked

open DenseMatrix

/-! ## Pivots and rows -/

def pivotRow? (a : DenseMatrix m n E) (pivoting : Pivoting) (c : Nat) : Checked (Option Nat) :=
  match pivoting with
  | .firstNonzero => (List.range' c (m - c)).findM? fun r => do return !((← entry a r c) == 0)
  | .largest => do
    let best ← loop c m (c, (0 : R)) fun best r => do
      let size := Entry.size (← entry a r c)
      return if best.2 < size then (r, size) else best
    return if 0 < best.2 then some best.1 else none

/-- Two rows exchanged. The buffer is split where the lower one starts; the
upper one has to end before, and the lower one with the buffer. -/
def swapRows (a : DenseMatrix m n E) (r s : Nat) : Checked (DenseMatrix m n E) := do
  let upper := min r s
  let lower := max r s
  let tail ← sub (m * n) (lower * n)
  if (upper + 1) * n ≤ lower * n ∧ n ≤ tail then return a.swapRows r s else throw .access

/-- The pivot row brought up, unless it is in place. -/
def bringUp (a : DenseMatrix m n E) (i r : Nat) : Checked (DenseMatrix m n E) :=
  if r = i then return a else swapRows a i r

def clearColumn (a : DenseMatrix m n E) (i : Nat) : Checked (DenseMatrix m n E) := do
  let pivot ← entry a i i
  let a ← loop 0 n a fun a j => do update a i j ((← entry a i j) / pivot)
  loop 0 m a fun a r => do
    if r = i then return a
    else
      let factor ← entry a r i
      if factor == 0 then return a
      else loop 0 n a fun a j => do
        update a r j ((← entry a r j) - factor * (← entry a i j))

def clearColumns (pivoting : Pivoting) (scale tiny : R) :
    List Nat → DenseMatrix m n E → Checked (Logged R (Except Error (DenseMatrix m n E)))
  | [], a => return .quiet (.ok a)
  | i :: is, a => do
    match ← pivotRow? a pivoting i with
    | none => return .quiet (.error (.singularMatrix i))
    | some r =>
      let a ← bringUp a i r
      let size := Entry.size (← entry a i i)
      let noted : List (Record R) := if size ≤ tiny then [.tinyPivot size i scale] else []
      let rest ← clearColumns pivoting scale tiny is (← clearColumn a i)
      return (Logged.mk noted ()).andThen fun _ => rest

/-! ## Inversion -/

/-- The matrix beside the identity, and the size of its largest entry. -/
def besideIdentity (value : Nat → Nat → Checked E) : Checked (DenseMatrix n (2 * n) E × R) :=
  loop 0 n ((.ofFn fun _ _ => 0), (0 : R)) fun v i => do
    let v ← loop 0 n v fun v j => do
      let x ← value i j
      return (← update v.1 i j x, Arith.larger v.2 (Entry.size x))
    return (← update v.1 i (n + i) 1, v.2)

def inverse (value : Nat → Nat → Checked E) (pivoting : Pivoting) :
    Checked (Logged R (Except Error (DenseMatrix n n E))) := do
  let (a, scale) ← besideIdentity (n := n) value
  let tiny := Arith.epsilon * scale * (n : R)
  let run ← clearColumns pivoting scale tiny (List.range n) a
  match run.value with
  | .error e => return run.map fun _ => .error e
  | .ok a =>
    let b ← tabulate fun i j => entry a i (n + j)
    return run.map fun _ => .ok b

/-! ## Pivots and rows -/

theorem pivotRow?_eq (a : DenseMatrix m n E) (pivoting : Pivoting) {c : Nat} (hc : c < n) :
    pivotRow? a pivoting c = .ok (a.pivotRow? pivoting c) := by
  cases pivoting with
  | firstNonzero =>
      refine findM?_eq_ok fun r hr => ?_
      have := List.mem_range'_1.1 hr
      rw [entry_eq (by omega) hc]
      rfl
  | largest =>
      have hloop : loop c m (c, (0 : R)) (fun best r => do
          let size := Entry.size (← entry a r c)
          return if best.2 < size then (r, size) else best) = .ok _ :=
        loop_eq_foldl (g := fun best r =>
          if best.2 < Entry.size (a r c) then (r, Entry.size (a r c)) else best)
          fun best r _ hr => by rw [entry_eq hr hc]; rfl
      rw [pivotRow?, hloop]
      rfl

omit [Arith R] in
theorem bringUp_eq (a : DenseMatrix m n E) {i r : Nat} (hir : i ≤ r) (hr : r < m) :
    bringUp a i r = .ok (a.swapRows i r) := by
  rcases Nat.eq_or_lt_of_le hir with rfl | hlt
  · rw [bringUp, if_pos rfl, swapRows_self]
    rfl
  · have hlower : r * n + n ≤ m * n := by
      rw [← Nat.succ_mul]
      exact Nat.mul_le_mul_right n hr
    have hupper : (i + 1) * n ≤ r * n := Nat.mul_le_mul_right n hlt
    rw [bringUp, if_neg (Nat.ne_of_gt hlt), swapRows, Nat.min_eq_left hir, Nat.max_eq_right hir,
      sub_eq_ok (by omega), ok_bind, if_pos ⟨hupper, by omega⟩]
    rfl

omit [Arith R] in
theorem clearColumn_eq (a : DenseMatrix m n E) {i : Nat} (hi : i < m) (hin : i < n) :
    clearColumn a i = .ok (a.clearColumn i) := by
  let b : DenseMatrix m n E := .ofFn fun r s => if r = i then a i s / a i i else a r s
  have hb (r s : Nat) (hr : r < m) (hs : s < n) :
      b r s = if r = i then a i s / a i i else a r s := (get_ofFn _ _ _).trans (if_pos ⟨hr, hs⟩)
  have hdivide : loop 0 n a (fun c j => do update c i j ((← entry c i j) / a i i)) = .ok b := by
    refine loop_update_eq (fun _ => i) (fun j => j) (fun j => a i j / a i i) (Nat.zero_le n)
      ?_ ?_ ?_ ?_
    · exact fun j _ hj => ⟨hi, hj⟩
    · intro c j _ hj h
      rw [entry_eq hi hj, ok_bind, h i j (by omega)]
    · intro j _ hj
      rw [hb i j hi hj, if_pos rfl]
    · intro r s hr hs h
      rw [hb r s hr hs, if_neg fun hri => h s (Nat.zero_le s) hs ⟨hri, rfl⟩]
  rw [clearColumn, entry_eq hi hin, ok_bind, hdivide, ok_bind]
  refine loop_rows_eq fun r hr => ?_
  generalize hc : b.overlay (fun k _ => k < r) (a.clearColumn i) = c
  have hold (s : Nat) (hs : s < n) (hri : r ≠ i) : c r s = a r s := by
    rw [← hc, get_overlay, if_neg (Nat.lt_irrefl r), hb r s hr hs, if_neg hri]
  have hpivot (s : Nat) (hs : s < n) : c i s = a i s / a i i := by
    rw [← hc, get_overlay, hb i s hi hs, clearColumn_entry i hi hs, if_pos rfl, if_pos rfl,
      ite_self]
  have hrest (k s : Nat) (hkr : k ≠ r) :
      (b.overlay (fun k _ => k < r + 1) (a.clearColumn i)) k s = c k s := by
    rw [← hc, get_overlay, get_overlay]
    exact if_congr (by omega) rfl rfl
  have hnew (s : Nat) : (b.overlay (fun k _ => k < r + 1) (a.clearColumn i)) r s
      = a.clearColumn i r s := by
    rw [get_overlay, if_pos (Nat.lt_succ_self r)]
  have hsame (h : ∀ s, s < n → a.clearColumn i r s = c r s) :
      Except.ok c = (.ok (b.overlay (fun k _ => k < r + 1) (a.clearColumn i)) : Checked _) := by
    refine congrArg Except.ok (ext_of_get fun k s _ hs => ?_)
    by_cases hkr : k = r
    · rw [hkr, hnew, h s hs]
    · rw [hrest k s hkr]
  split
  · next hri =>
      refine hsame fun s hs => ?_
      rw [clearColumn_entry i hr hs, if_pos hri, hri, hpivot s hs]
  · next hri =>
      rw [entry_eq hr hin, ok_bind, hold i hin hri]
      split
      · next hzero =>
          refine hsame fun s hs => ?_
          rw [clearColumn_entry i hr hs, if_neg hri, if_pos hzero, hold s hs hri]
      · next hzero =>
          refine loop_update_eq (fun _ => r) (fun j => j)
            (fun j => a r j - a r i * (a i j / a i i)) (Nat.zero_le n) ?_ ?_ ?_ ?_
          · exact fun j _ hj => ⟨hr, hj⟩
          · intro c' j _ hj h
            rw [entry_eq hr hj, ok_bind, entry_eq hi hj, ok_bind, h r j (by omega),
              h i j (by omega), hold j hj hri, hpivot j hj]
          · intro j _ hj
            rw [hnew, clearColumn_entry i hr hj, if_neg hri, if_neg hzero]
          · intro k s _ hs h
            exact hrest k s fun hkr => h s (Nat.zero_le s) hs ⟨hkr, rfl⟩

theorem clearColumns_eq (pivoting : Pivoting) (scale tiny : R) {is : List Nat}
    (his : ∀ i ∈ is, i < m ∧ i < n) (a : DenseMatrix m n E) :
    clearColumns pivoting scale tiny is a
      = .ok (DenseMatrix.clearColumns pivoting scale tiny is a) := by
  induction is generalizing a with
  | nil => rfl
  | cons i is ih =>
      obtain ⟨hi, hin⟩ := his i List.mem_cons_self
      rw [clearColumns, pivotRow?_eq a pivoting hin, ok_bind, DenseMatrix.clearColumns]
      cases hpivot : a.pivotRow? pivoting i with
      | none => rfl
      | some r =>
          obtain ⟨hle, hr⟩ := pivotRow?_bounds hi hpivot
          simp only [bringUp_eq a hle hr, ok_bind, entry_eq hi hin, clearColumn_eq _ hi hin,
            ih fun j hj => his j (List.mem_cons_of_mem i hj)]
          rfl

/-! ## Inversion -/

/-- One row written, and its entries compared with the largest one so far. -/
theorem loadRow_eq {value : Nat → Nat → Checked E} {a : DenseMatrix n n E} {i : Nat} (hi : i < n)
    (h : ∀ j, j < n → value i j = .ok (a i j)) (c : DenseMatrix n (2 * n) E) (t : R) :
    loop 0 n (c, t) (fun v j => do
        let x ← value i j
        return (← update v.1 i j x, Arith.larger v.2 (Entry.size x)))
      = .ok ((.ofFn fun r s => if r = i ∧ s < n then a i s else c r s),
          (List.range n).foldl (fun t j => Arith.larger t (Entry.size (a i j))) t) := by
  let f (k : Nat) : DenseMatrix n (2 * n) E × R :=
    (.ofFn fun r s => if r = i ∧ s < k then a i s else c r s,
      (List.range k).foldl (fun t j => Arith.larger t (Entry.size (a i j))) t)
  have hstart : (c, t) = f 0 := by
    refine Prod.ext (ext_of_get fun r s hr hs => ?_) rfl
    rw [get_ofFn, if_pos ⟨hr, hs⟩, if_neg (by omega)]
  rw [hstart]
  refine loop_eq (f := f) (Nat.zero_le n) fun k _ hk => ?_
  rw [h k hk, ok_bind, update_eq hi (by omega)]
  refine congrArg Except.ok (Prod.ext (ext_of_get fun r s hr hs => ?_) ?_)
  · simp only [f, get_set, get_ofFn, hr, hs]
    grind
  · simp only [f, List.range_succ, List.foldl_concat]

theorem besideIdentity_eq {value : Nat → Nat → Checked E} {a : DenseMatrix n n E}
    (h : ∀ i j, i < n → j < n → value i j = .ok (a i j)) :
    besideIdentity value = .ok (a.besideIdentity, Arith.largestOver a.entries Entry.size) := by
  let f (k : Nat) : DenseMatrix n (2 * n) E × R :=
    (DenseMatrix.overlay (.ofFn fun _ _ => 0) (fun r _ => r < k) a.besideIdentity,
      (List.range k).foldl (fun t i =>
        (List.range n).foldl (fun t j => Arith.larger t (Entry.size (a i j))) t) 0)
  have hstart : ((.ofFn fun _ _ => 0), (0 : R)) = f 0 :=
    Prod.ext (overlay_eq_left fun r _ _ _ h => absurd h (Nat.not_lt_zero r)).symm rfl
  have hend : f n = (a.besideIdentity, Arith.largestOver a.entries Entry.size) := by
    refine Prod.ext (overlay_eq_right fun r _ hr _ h => absurd hr h) ?_
    rw [entries_eq, Arith.largestOver, List.foldl_flatMap]
    simp only [f, List.foldl_map]
  rw [besideIdentity, hstart, ← hend]
  refine loop_eq (f := f) (Nat.zero_le n) fun i _ hi => ?_
  rw [loadRow_eq hi (h i · hi), ok_bind, update_eq hi (by omega)]
  refine congrArg Except.ok (Prod.ext (ext_of_get fun r s hr hs => ?_) ?_)
  · simp only [f, get_set, get_overlay, get_ofFn, DenseMatrix.besideIdentity, hr, hs]
    grind
  · simp only [f, List.range_succ, List.foldl_concat]

theorem inverse_eq {value : Nat → Nat → Checked E} {a : DenseMatrix n n E}
    (h : ∀ i j, i < n → j < n → value i j = .ok (a i j)) (pivoting : Pivoting) :
    inverse value pivoting = .ok (a.inverse pivoting) := by
  have his : ∀ i ∈ List.range n, i < n ∧ i < 2 * n := fun i hi => by
    have := List.mem_range.1 hi
    omega
  have hcolumns (scale tiny : R) := clearColumns_eq pivoting scale tiny his a.besideIdentity
  have hright (b : DenseMatrix n (2 * n) E) :
      (tabulate fun i j => entry b i (n + j) : Checked (DenseMatrix n n E)) = .ok b.rightHalf :=
    tabulate_eq fun i j hi hj => entry_eq hi (by omega)
  simp only [inverse, besideIdentity_eq h, ok_bind, hcolumns, hright, DenseMatrix.inverse]
  generalize Arith.largestOver a.entries Entry.size = scale
  generalize DenseMatrix.clearColumns pivoting scale (Arith.epsilon * scale * (n : R))
    (List.range n) a.besideIdentity = run
  obtain ⟨records, value⟩ := run
  cases value <;> rfl

end Checked

end DenseNumeric
