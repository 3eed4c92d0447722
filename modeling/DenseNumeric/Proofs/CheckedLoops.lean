import DenseNumeric.Proofs.CheckedIndexing

/-!
# Loops over the entries of a matrix

The loops of the decompositions, as they are carried out in place: indices run
over a range, and every entry that is read or written has to be there.

What such a loop does is said by an equation. After some of its steps the
matrix has the entries of the result at the places that were dealt with, and
the old ones at the others (`overlay`); so one step is compared with one more
place dealt with, and `loop_eq` goes through the range.
-/

namespace DenseNumeric

namespace DenseMatrix

variable {E : Type} [Inhabited E] {m n : Nat}

/-- The entries of `b` at the places where something was done, and those of
`a` at the others. -/
def overlay (a : DenseMatrix m n E) (done : Nat → Nat → Prop) [∀ i j, Decidable (done i j)]
    (b : DenseMatrix m n E) : DenseMatrix m n E :=
  ofFn fun i j => if done i j then b i j else a i j

variable {a b : DenseMatrix m n E} {i j : Nat}

theorem get_overlay (done : Nat → Nat → Prop) [∀ i j, Decidable (done i j)] :
    (a.overlay done b) i j = if done i j then b i j else a i j := by
  rw [overlay, get_ofFn]
  split
  · rfl
  · next h => rw [get_of_not h, get_of_not h, ite_self]

theorem overlay_eq_right {done : Nat → Nat → Prop} [∀ i j, Decidable (done i j)]
    (h : ∀ i j, i < m → j < n → ¬done i j → b i j = a i j) : a.overlay done b = b := by
  refine ext_of_get fun i j hi hj => ?_
  rw [get_overlay]
  split
  · rfl
  · next hdone => exact (h i j hi hj hdone).symm

theorem overlay_eq_left {done : Nat → Nat → Prop} [∀ i j, Decidable (done i j)]
    (h : ∀ i j, i < m → j < n → done i j → b i j = a i j) : a.overlay done b = a := by
  refine ext_of_get fun i j hi hj => ?_
  rw [get_overlay]
  split
  · next hdone => exact h i j hi hj hdone
  · rfl

end DenseMatrix

namespace Checked

open DenseMatrix

/-! ## Loops -/

section Loops

variable {σ : Type} {first last : Nat} {body : σ → Nat → Checked σ}

/-- One index after another, from `first` to before `last`. -/
def loop (first last : Nat) (s : σ) (body : σ → Nat → Checked σ) : Checked σ :=
  (List.range' first (last - first)).foldlM body s

/-- The same indices, the last one first. -/
def loopDown (first last : Nat) (s : σ) (body : σ → Nat → Checked σ) : Checked σ :=
  (List.range' first (last - first)).reverse.foldlM body s

/-- A loop beside another one over the same indices, which cannot go wrong. -/
theorem loop_rel {τ : Type} {g : τ → Nat → τ} {P : Nat → σ → τ → Prop} {s : σ} {t : τ}
    (hle : first ≤ last) (start : P first s t)
    (step : ∀ k s t, first ≤ k → k < last → P k s t →
      ∃ s', body s k = .ok s' ∧ P (k + 1) s' (g t k)) :
    ∃ s', loop first last s body = .ok s' ∧
      P last s' ((List.range' first (last - first)).foldl g t) := by
  obtain ⟨count, rfl⟩ := Nat.exists_eq_add_of_le hle
  rw [loop, Nat.add_sub_cancel_left]
  clear hle
  induction count generalizing first s t with
  | zero => exact ⟨s, rfl, start⟩
  | succ count ih =>
      obtain ⟨s', hs', hP⟩ := step first s t (Nat.le_refl _) (by omega) start
      rw [List.range'_succ, List.foldlM_cons, hs', ok_bind, List.foldl_cons,
        show first + (count + 1) = first + 1 + count by omega]
      exact ih hP fun k s t hk hlt => step k s t (by omega) (by omega)

theorem loopDown_rel {τ : Type} {g : τ → Nat → τ} {P : Nat → σ → τ → Prop} {s : σ} {t : τ}
    (hle : first ≤ last) (start : P last s t)
    (step : ∀ k s t, first ≤ k → k < last → P (k + 1) s t →
      ∃ s', body s k = .ok s' ∧ P k s' (g t k)) :
    ∃ s', loopDown first last s body = .ok s' ∧
      P first s' ((List.range' first (last - first)).reverse.foldl g t) := by
  obtain ⟨count, rfl⟩ := Nat.exists_eq_add_of_le hle
  rw [loopDown, Nat.add_sub_cancel_left]
  clear hle
  induction count generalizing s t with
  | zero => exact ⟨s, rfl, start⟩
  | succ count ih =>
      obtain ⟨s', hs', hP⟩ := step (first + count) s t (by omega) (by omega) start
      rw [List.range'_1_concat, List.reverse_concat, List.foldlM_cons, hs', ok_bind,
        List.foldl_cons]
      exact ih hP fun k s t hk hlt => step k s t hk (by omega)

theorem loop_eq {f : Nat → σ} (hle : first ≤ last)
    (h : ∀ k, first ≤ k → k < last → body (f k) k = .ok (f (k + 1))) :
    loop first last (f first) body = .ok (f last) := by
  obtain ⟨s, hs, rfl⟩ := loop_rel (P := fun k s (_ : Unit) => s = f k) (g := fun t _ => t)
    (t := ()) hle rfl fun k s _ hk hlt (hs : s = f k) => ⟨f (k + 1), hs ▸ h k hk hlt, rfl⟩
  exact hs

/-- A loop that carries a sum along. -/
theorem loop_eq_foldl {g : σ → Nat → σ} {s : σ}
    (h : ∀ s k, first ≤ k → k < last → body s k = .ok (g s k)) :
    loop first last s body = .ok ((List.range' first (last - first)).foldl g s) :=
  foldlM_eq_ok (P := fun _ => True)
    (fun s _ k hk => by
      have := List.mem_range'_1.1 hk
      exact ⟨h s k this.1 (by omega), trivial⟩) trivial

theorem loopDown_eq_foldl {g : σ → Nat → σ} {s : σ}
    (h : ∀ s k, first ≤ k → k < last → body s k = .ok (g s k)) :
    loopDown first last s body
      = .ok ((List.range' first (last - first)).reverse.foldl g s) :=
  foldlM_eq_ok (P := fun _ => True) (fun s _ k hk => by
    have := List.mem_range'_1.1 (List.mem_reverse.1 hk)
    exact ⟨h s k this.1 (by omega), trivial⟩) trivial

theorem loop_of_le {s : σ} (h : last ≤ first) : loop first last s body = .ok s := by
  rw [loop, Nat.sub_eq_zero_of_le h]
  rfl

/-- A loop over the indices of a list, the first of which is `first`. -/
theorem loop_eq_foldl_zipIdx {α : Type} {xs : List α} {g : σ → α × Nat → σ} {s : σ}
    (h : ∀ s k (_ : k < xs.length), body s (first + k) = .ok (g s (xs[k], first + k))) :
    loop first (first + xs.length) s body = .ok ((xs.zipIdx first).foldl g s) := by
  rw [loop, Nat.add_sub_cancel_left]
  induction xs generalizing first s with
  | nil => rfl
  | cons x xs ih =>
      have hhead : body s first = .ok (g s (x, first)) := h s 0 (Nat.succ_pos _)
      rw [List.length_cons, List.range'_succ, List.foldlM_cons, List.zipIdx_cons, List.foldl_cons,
        hhead, ok_bind]
      refine ih fun s k hk => ?_
      rw [show first + 1 + k = first + (k + 1) by omega]
      exact h s (k + 1) (Nat.succ_lt_succ hk)

end Loops

theorem option_mapM_eq_ok {α β : Type} {f : α → Checked β} {g : α → β} {o : Option α}
    (h : ∀ x ∈ o, f x = .ok (g x)) : o.mapM f = .ok (o.map g) := by
  cases o with
  | none => rfl
  | some x => simp only [Option.mapM_some, h x rfl, Option.map_some]; rfl

theorem findM?_eq_ok {α : Type} {p : α → Checked Bool} {q : α → Bool} {xs : List α}
    (h : ∀ x ∈ xs, p x = .ok (q x)) : xs.findM? p = .ok (xs.find? q) := by
  induction xs with
  | nil => rfl
  | cons x xs ih =>
      rw [List.findM?, h x List.mem_cons_self, ok_bind, List.find?_cons]
      cases q x with
      | true => rfl
      | false => exact ih fun y hy => h y (List.mem_cons_of_mem x hy)

theorem sub_eq_ok {m n : Nat} (h : n ≤ m) : sub m n = .ok (m - n) := if_pos h

/-! ## Entries -/

section Vectors

variable {α : Type} {n : Nat}

def fetch (xs : Vector α n) (i : Nat) : Checked α :=
  if _ : i < n then return xs[i] else throw .access

def put (xs : Vector α n) (i : Nat) (x : α) : Checked (Vector α n) :=
  if i < n then return xs.setIfInBounds i x else throw .access

theorem fetch_eq {xs : Vector α n} {i : Nat} (hi : i < n) (x : α) :
    fetch xs i = .ok (xs.getD i x) := by
  rw [fetch, dif_pos hi]
  simp [Vector.getD, hi, pure, Except.pure]

theorem put_eq {xs : Vector α n} {i : Nat} (hi : i < n) (x : α) :
    put xs i x = .ok (xs.setIfInBounds i x) := if_pos hi

end Vectors

section Entries

variable {E : Type} [Inhabited E] {m n : Nat}

def entry (a : DenseMatrix m n E) (i j : Nat) : Checked E :=
  if i < m ∧ j < n then return a i j else throw .access

def update (a : DenseMatrix m n E) (i j : Nat) (x : E) : Checked (DenseMatrix m n E) :=
  if i < m ∧ j < n then return a.set i j x else throw .access

variable {a b : DenseMatrix m n E} {i j : Nat}

theorem entry_eq (hi : i < m) (hj : j < n) : entry a i j = .ok (a i j) := if_pos ⟨hi, hj⟩

theorem update_eq {x : E} (hi : i < m) (hj : j < n) : update a i j x = .ok (a.set i j x) :=
  if_pos ⟨hi, hj⟩

/-- A loop in which each step deals with further places. -/
theorem loop_overlay {first last : Nat} {body : DenseMatrix m n E → Nat → Checked _}
    (done : Nat → Nat → Nat → Prop) [∀ k i j, Decidable (done k i j)] (hle : first ≤ last)
    (hfirst : ∀ i j, i < m → j < n → done first i j → b i j = a i j)
    (hlast : ∀ i j, i < m → j < n → ¬done last i j → b i j = a i j)
    (hbody : ∀ k, first ≤ k → k < last →
      body (a.overlay (done k) b) k = .ok (a.overlay (done (k + 1)) b)) :
    loop first last a body = .ok b := by
  have h := loop_eq (f := fun k => a.overlay (done k) b) hle hbody
  rwa [overlay_eq_left hfirst, overlay_eq_right hlast] at h

/-- A loop that deals with one row after another. -/
theorem loop_rows_eq {body : DenseMatrix m n E → Nat → Checked _}
    (hbody : ∀ i, i < m → body (a.overlay (fun r _ => r < i) b) i
      = .ok (a.overlay (fun r _ => r < i + 1) b)) :
    loop 0 m a body = .ok b :=
  loop_overlay (fun i r _ => r < i) (Nat.zero_le m) (fun r _ _ _ h => absurd h (Nat.not_lt_zero r))
    (fun _ _ hr _ h => absurd hr h) fun i _ hi => hbody i hi

/-- A loop that deals with one column after another. -/
theorem loop_cols_eq {body : DenseMatrix m n E → Nat → Checked _}
    (hbody : ∀ j, j < n → body (a.overlay (fun _ s => s < j) b) j
      = .ok (a.overlay (fun _ s => s < j + 1) b)) :
    loop 0 n a body = .ok b :=
  loop_overlay (fun j _ s => s < j) (Nat.zero_le n) (fun _ s _ _ h => absurd h (Nat.not_lt_zero s))
    (fun _ _ _ hs h => absurd hs h) fun j _ hj => hbody j hj

/-- A loop that gives places of their own new values, one after another. Each
value is computed when the places before are written and the others are not. -/
theorem loop_update_eq {first last : Nat} {body : DenseMatrix m n E → Nat → Checked _}
    (row col : Nat → Nat) (x : Nat → E) (hle : first ≤ last)
    (hin : ∀ k, first ≤ k → k < last → row k < m ∧ col k < n)
    (hbody : ∀ c k, first ≤ k → k < last →
      (∀ i j, (∀ l, first ≤ l → l < k → ¬(i = row l ∧ j = col l)) → c i j = a i j) →
      body c k = update c (row k) (col k) (x k))
    (hnew : ∀ k, first ≤ k → k < last → b (row k) (col k) = x k)
    (hold : ∀ i j, i < m → j < n →
      (∀ l, first ≤ l → l < last → ¬(i = row l ∧ j = col l)) → b i j = a i j) :
    loop first last a body = .ok b := by
  classical
  refine loop_overlay (fun k i j => ∃ l, first ≤ l ∧ l < k ∧ i = row l ∧ j = col l) hle ?_ ?_ ?_
  · rintro i j - - ⟨l, hl, hlt, -⟩
    omega
  · intro i j hi hj hdone
    exact hold i j hi hj fun l hl hlt h => hdone ⟨l, hl, hlt, h⟩
  · intro k hk hlt
    obtain ⟨hrow, hcol⟩ := hin k hk hlt
    rw [hbody _ k hk hlt fun i j h => ?_, update_eq hrow hcol]
    · congr 1
      refine ext_of_get fun i j hi hj => ?_
      rw [get_set _ _ _ _ hi hj, get_overlay, get_overlay]
      by_cases hij : i = row k ∧ j = col k
      · rw [if_pos hij, if_pos ⟨k, hk, Nat.lt_succ_self k, hij⟩, hij.1, hij.2, hnew k hk hlt]
      · rw [if_neg hij]
        refine if_congr ⟨?_, ?_⟩ rfl rfl
        · rintro ⟨l, hl, hlk, h⟩
          exact ⟨l, hl, Nat.lt_succ_of_lt hlk, h⟩
        · rintro ⟨l, hl, hlk, h⟩
          refine ⟨l, hl, ?_, h⟩
          rcases Nat.lt_succ_iff_lt_or_eq.1 hlk with hlk | rfl
          · exact hlk
          · exact absurd h hij
    · rw [get_overlay, if_neg]
      rintro ⟨l, hl, hlk, hij⟩
      exact h l hl hlk hij

/-- A matrix filled row by row. -/
def tabulate (value : Nat → Nat → Checked E) : Checked (DenseMatrix m n E) :=
  loop 0 m (.ofFn fun _ _ => default) fun a i => loop 0 n a fun a j => do
    update a i j (← value i j)

theorem tabulate_eq {value : Nat → Nat → Checked E} {f : Nat → Nat → E}
    (h : ∀ i j, i < m → j < n → value i j = .ok (f i j)) :
    tabulate value = .ok (.ofFn f : DenseMatrix m n E) := by
  refine loop_rows_eq fun i hi => ?_
  refine loop_update_eq (fun _ => i) (fun j => j) (f i) (Nat.zero_le n) ?_ ?_ ?_ ?_
  · exact fun j _ hj => ⟨hi, hj⟩
  · intro c j _ hj _
    rw [h i j hi hj, ok_bind]
  · intro j _ hj
    rw [get_overlay, if_pos (Nat.lt_succ_self i), get_ofFn, if_pos ⟨hi, hj⟩]
  · intro r s hr hs hne
    have hri : r ≠ i := fun hri => hne s (Nat.zero_le s) hs ⟨hri, rfl⟩
    rw [get_overlay, get_overlay]
    exact if_congr (by omega) rfl rfl

end Entries

end Checked

end DenseNumeric
