import DenseNumeric.Proofs.CheckedLoops
import DenseNumeric.Proofs.Substitution

/-!
# Substitution within bounds

Eigenvectors of a triangular matrix, found in the columns or in the rows of a
matrix that is the identity at first. A vector is written from its own place
on the diagonal outward, and divided by its largest length where it stands.

Rows and columns are treated alike, as lines: the place of every entry, in the
order of the entries (`IsLine`). A line that is worked on holds a list of
entries from some place on, and is untouched elsewhere (`Holds`).
-/

namespace DenseNumeric

variable {R : Type} [Arith R] {n : Nat}

/-! ## Lines -/

/-- Different places of a matrix, one for each index. -/
structure IsLine (n : Nat) (row col : Nat → Nat) : Prop where
  lt : ∀ k < n, row k < n ∧ col k < n
  inj : ∀ k l, row k = row l → col k = col l → k = l

theorem isLine_row {i : Nat} (hi : i < n) : IsLine n (fun _ => i) fun k => k :=
  ⟨fun _ hk => ⟨hi, hk⟩, fun _ _ _ h => h⟩

theorem isLine_col {i : Nat} (hi : i < n) : IsLine n (fun k => k) fun _ => i :=
  ⟨fun _ hk => ⟨hk, hi⟩, fun _ _ h _ => h⟩

/-- The line has the entries `es`, from `first` on, and what is elsewhere is as
in `c`. -/
structure Holds (c a : DenseMatrix n n (Complex R)) (row col : Nat → Nat) (first : Nat)
    (es : List (Complex R)) : Prop where
  entry : ∀ k < es.length, a (row (first + k)) (col (first + k)) = es.getD k 0
  rest : ∀ r s, r < n → s < n →
    (∀ k < es.length, ¬(r = row (first + k) ∧ s = col (first + k))) → a r s = c r s

namespace Checked

open DenseMatrix

/-- Entries `first` to before `last` of a line, divided by `x`. -/
def divideLine (a : DenseMatrix n n (Complex R)) (row col : Nat → Nat) (first last : Nat) (x : R) :
    Checked (DenseMatrix n n (Complex R)) :=
  loop first last a fun a k => do
    update a (row k) (col k) ((← entry a (row k) (col k)).divReal x)

/-- Another entry of a vector, at place `j` of its line. The whole vector,
which then reaches from `first` to before `last`, is scaled down if it has
grown large. -/
def extend (v : DenseMatrix n n (Complex R) × R) (row col : Nat → Nat) (j first last : Nat)
    (x : Complex R) : Checked (DenseMatrix n n (Complex R) × R) := do
  let a ← update v.1 (row j) (col j) x
  let growth := Arith.larger v.2 x.magnitude
  if 1 / Arith.sqrt Arith.epsilon < growth then
    return (← divideLine a row col first last growth, 1)
  else return (a, growth)

def finish (v : DenseMatrix n n (Complex R) × R) (row col : Nat → Nat) (first last : Nat) :
    Checked (DenseMatrix n n (Complex R)) :=
  if v.2 == 1 then return v.1 else divideLine v.1 row col first last v.2

/-- One entry more of the vector in column `i`, that in row `j`. -/
def rightStep (t : DenseMatrix n n (Complex R)) (i : Nat) (s : Complex R)
    (v : DenseMatrix n n (Complex R) × R) (j : Nat) :
    Checked (DenseMatrix n n (Complex R) × R) := do
  let r ← loop (j + 1) (i + 1) (0 : Complex R) fun r k => do
    return r + (← entry t j k) * (← entry v.1 k i)
  extend v (fun k => k) (fun _ => i) j j (i + 1) (-r / gap n (← entry t j j) s)

def rightEigenvector (t : DenseMatrix n n (Complex R)) (a : DenseMatrix n n (Complex R)) (i : Nat) :
    Checked (DenseMatrix n n (Complex R)) := do
  let s ← entry t i i
  let v ← loopDown 0 i (a, (1 : R)) (rightStep t i s)
  finish v (fun k => k) (fun _ => i) 0 (i + 1)

def rightEigenvectors (t : DenseMatrix n n (Complex R)) :
    Checked (DenseMatrix n n (Complex R)) :=
  loop 1 n .identity (rightEigenvector t)

/-- One entry more of the vector in row `i`, that in column `j`. -/
def leftStep (t : DenseMatrix n n (Complex R)) (i : Nat) (s : Complex R)
    (v : DenseMatrix n n (Complex R) × R) (j : Nat) :
    Checked (DenseMatrix n n (Complex R) × R) := do
  let r ← loop i j (0 : Complex R) fun r k => do
    return r + (← entry v.1 i k) * (← entry t k j)
  extend v (fun _ => i) (fun k => k) j i (j + 1) (-r / gap n (← entry t j j) s)

def leftEigenvector (t : DenseMatrix n n (Complex R)) (a : DenseMatrix n n (Complex R)) (i : Nat) :
    Checked (DenseMatrix n n (Complex R)) := do
  let s ← entry t i i
  let v ← loop (i + 1) n (a, (1 : R)) (leftStep t i s)
  finish v (fun _ => i) (fun k => k) i n

def leftEigenvectors (t : DenseMatrix n n (Complex R)) :
    Checked (DenseMatrix n n (Complex R)) :=
  loop 0 (n - 1) .identity (leftEigenvector t)

/-! ## Lines -/

section Lines

variable {c a : DenseMatrix n n (Complex R)} {row col : Nat → Nat} {first : Nat}
  {es : List (Complex R)}

theorem divideLine_eq (h : IsLine n row col) {last : Nat} (hle : first ≤ last) (hlast : last ≤ n)
    (a : DenseMatrix n n (Complex R)) (x : R) :
    ∃ b, divideLine a row col first last x = .ok b ∧
      (∀ k, first ≤ k → k < last → b (row k) (col k) = (a (row k) (col k)).divReal x) ∧
      ∀ r s, r < n → s < n → (∀ k, first ≤ k → k < last → ¬(r = row k ∧ s = col k)) →
        b r s = a r s := by
  classical
  let done (r s : Nat) : Prop := ∃ k, first ≤ k ∧ k < last ∧ r = row k ∧ s = col k
  have hnew (k : Nat) (hk : first ≤ k) (hlt : k < last) :
      (a.overlay done (ofFn fun r s => (a r s).divReal x)) (row k) (col k)
        = (a (row k) (col k)).divReal x := by
    rw [get_overlay, if_pos ⟨k, hk, hlt, rfl, rfl⟩, get_ofFn, if_pos (h.lt k (by omega))]
  have hold (r s : Nat) (hne : ∀ k, first ≤ k → k < last → ¬(r = row k ∧ s = col k)) :
      (a.overlay done (ofFn fun r s => (a r s).divReal x)) r s = a r s := by
    rw [get_overlay, if_neg]
    rintro ⟨k, hk, hlt, hrs⟩
    exact hne k hk hlt hrs
  refine ⟨_, loop_update_eq row col (fun k => (a (row k) (col k)).divReal x) hle ?_ ?_ hnew
    fun r s _ _ => hold r s, hnew, fun r s _ _ => hold r s⟩
  · exact fun k _ hlt => h.lt k (by omega)
  · intro c k _ hlt hc
    obtain ⟨hrow, hcol⟩ := h.lt k (by omega)
    rw [entry_eq hrow hcol, ok_bind, hc _ _ fun l _ hl hkl => ?_]
    have := h.inj k l hkl.1 hkl.2
    omega

end Lines

end Checked

namespace Holds

open DenseMatrix

variable {c a : DenseMatrix n n (Complex R)} {row col : Nat → Nat} {first : Nat}
  {es : List (Complex R)}

theorem cons (hline : IsLine n row col) (h : Holds c a row col (first + 1) es)
    (hlen : first + 1 + es.length ≤ n) (x : Complex R) :
    Holds c (a.set (row first) (col first) x) row col first (x :: es) where
  entry k hk := by
    have hk : k < es.length + 1 := hk
    obtain ⟨hrow, hcol⟩ := hline.lt (first + k) (by omega)
    rw [get_set _ _ _ _ hrow hcol]
    cases k with
    | zero => exact if_pos ⟨rfl, rfl⟩
    | succ k =>
        rw [if_neg fun hrc => ?_, List.getD_cons_succ, ← h.entry k (by omega)]
        · rw [show first + (k + 1) = first + 1 + k by omega]
        · have := hline.inj _ _ hrc.1 hrc.2
          omega
  rest r s hr hs hne := by
    have hfirst : ¬(r = row first ∧ s = col first) := hne 0 (Nat.succ_pos _)
    rw [get_set _ _ _ _ hr hs, if_neg hfirst]
    refine h.rest r s hr hs fun k hk => ?_
    rw [show first + 1 + k = first + (k + 1) by omega]
    exact hne (k + 1) (Nat.succ_lt_succ hk)

theorem concat (hline : IsLine n row col) (h : Holds c a row col first es)
    (hlen : first + es.length < n) (x : Complex R) :
    Holds c (a.set (row (first + es.length)) (col (first + es.length)) x) row col first
      (es ++ [x]) where
  entry k hk := by
    rw [List.length_append, List.length_singleton] at hk
    obtain ⟨hrow, hcol⟩ := hline.lt (first + k) (by omega)
    rw [get_set _ _ _ _ hrow hcol]
    rcases Nat.lt_succ_iff_lt_or_eq.1 hk with hlt | rfl
    · rw [if_neg fun hrc => ?_, h.entry k hlt, List.getD_append _ _ _ _ hlt]
      have := hline.inj _ _ hrc.1 hrc.2
      omega
    · rw [if_pos ⟨rfl, rfl⟩, List.getD_append_right _ _ _ _ (Nat.le_refl _), Nat.sub_self]
      rfl
  rest r s hr hs hne := by
    rw [List.length_append, List.length_singleton] at hne
    rw [get_set _ _ _ _ hr hs, if_neg (hne es.length (Nat.lt_succ_self _))]
    exact h.rest r s hr hs fun k hk => hne k (Nat.lt_succ_of_lt hk)

theorem divide (hline : IsLine n row col) (h : Holds c a row col first es)
    (hlen : first + es.length ≤ n) (x : R) :
    ∃ b, Checked.divideLine a row col first (first + es.length) x = .ok b ∧
      Holds c b row col first (es.map (·.divReal x)) := by
  obtain ⟨b, hb, hnew, hold⟩ := Checked.divideLine_eq hline (Nat.le_add_right _ _) hlen a x
  refine ⟨b, hb, fun k hk => ?_, fun r s hr hs hne => ?_⟩
  · rw [List.length_map] at hk
    rw [hnew _ (Nat.le_add_right _ _) (by omega), h.entry k hk]
    simp [List.getD, hk]
  · rw [List.length_map] at hne
    rw [hold r s hr hs fun k hk hlt => ?_, h.rest r s hr hs hne]
    obtain ⟨d, rfl⟩ := Nat.exists_eq_add_of_le hk
    exact hne d (by omega)

end Holds

/-- The line holds the entries of a vector from `first` to before `last`, and
its largest length is carried along. -/
structure Carries (c : DenseMatrix n n (Complex R)) (v : DenseMatrix n n (Complex R) × R)
    (row col : Nat → Nat) (first last : Nat) (p : Partial R) : Prop where
  growth : v.2 = p.growth
  length : first + p.entries.length = last
  holds : Holds c v.1 row col first p.entries

namespace Carries

open DenseMatrix

variable {c : DenseMatrix n n (Complex R)} {v : DenseMatrix n n (Complex R) × R}
  {row col : Nat → Nat} {first last : Nat} {p : Partial R}

/-- At first a line has its entry on the diagonal. -/
theorem start {i : Nat} (hrow : row i = i) (hcol : col i = i) (hc : c i i = 1) :
    Carries c (c, 1) row col i (i + 1) .start where
  growth := rfl
  length := rfl
  holds := by
    refine ⟨fun k hk => ?_, fun _ _ _ _ _ => rfl⟩
    obtain rfl : k = 0 := Nat.lt_one_iff.1 hk
    rw [Nat.add_zero, hrow, hcol, hc]
    rfl

theorem extend (hline : IsLine n row col) {es : List (Complex R)} {j : Nat} {x : Complex R}
    (hgrowth : v.2 = p.growth) (h : Holds c (v.1.set (row j) (col j) x) row col first es)
    (hj : j < n) (hlen : first + es.length = last) (hlast : last ≤ n) :
    ∃ v', Checked.extend v row col j first last x = .ok v' ∧
      Carries c v' row col first last (p.extend es x) := by
  obtain ⟨hrow, hcol⟩ := hline.lt j hj
  subst hlen
  simp only [Checked.extend, Checked.update_eq hrow hcol, Checked.ok_bind, hgrowth, Partial.extend]
  split
  · next hlarge =>
      obtain ⟨b, hb, hholds⟩ := h.divide hline hlast (Arith.larger p.growth x.magnitude)
      rw [hb]
      exact ⟨_, rfl, rfl, congrArg (first + ·) (List.length_map _), hholds⟩
  · exact ⟨_, rfl, rfl, rfl, h⟩

theorem finish (hline : IsLine n row col) (h : Carries c v row col first last p)
    (hlast : last ≤ n) :
    ∃ b, Checked.finish v row col first last = .ok b ∧ Holds c b row col first p.finish ∧
      first + p.finish.length = last := by
  obtain ⟨hgrowth, rfl, hholds⟩ := h
  simp only [Checked.finish, Partial.finish, hgrowth]
  split
  · exact ⟨_, rfl, hholds, rfl⟩
  · obtain ⟨b, hb, hholds⟩ := hholds.divide hline hlast p.growth
    exact ⟨b, hb, hholds, congrArg (first + ·) (List.length_map _)⟩

end Carries

namespace Checked

open DenseMatrix

/-! ## Eigenvectors -/

section Vectors

variable {t c : DenseMatrix n n (Complex R)} {v : DenseMatrix n n (Complex R) × R} {i j : Nat}
  {p : Partial R}

theorem rightStep_eq (hi : i < n) (hj : j < i)
    (h : Carries c v (fun k => k) (fun _ => i) (j + 1) (i + 1) p) :
    ∃ v', rightStep t i (t i i) v j = .ok v' ∧
      Carries c v' (fun k => k) (fun _ => i) j (i + 1) (t.rightStep i p j) := by
  have hjn : j < n := by omega
  have hlen := h.length
  have hsum : loop (j + 1) (i + 1) (0 : Complex R) (fun r k => do
        return r + (← entry t j k) * (← entry v.1 k i))
      = .ok (Arith.sumOver (p.entries.zipIdx (j + 1)) fun e => t j e.2 * e.1) := by
    rw [← hlen]
    refine loop_eq_foldl_zipIdx fun r k hk => ?_
    have hkn : j + 1 + k < n := by omega
    rw [entry_eq hjn hkn, ok_bind, entry_eq hkn hi, ok_bind, h.holds.entry k hk,
      List.getD_eq_getElem _ _ hk]
    rfl
  rw [rightStep, hsum, ok_bind, entry_eq hjn hjn, ok_bind]
  refine Carries.extend (isLine_col hi) h.growth (h.holds.cons (isLine_col hi) (by omega) _) hjn
    ?_ (by omega)
  rw [List.length_cons]
  omega

theorem leftStep_eq (hi : i < n) (hj : j < n) (h : Carries c v (fun _ => i) (fun k => k) i j p) :
    ∃ v', leftStep t i (t i i) v j = .ok v' ∧
      Carries c v' (fun _ => i) (fun k => k) i (j + 1) (t.leftStep i p j) := by
  obtain ⟨hgrowth, rfl, hholds⟩ := h
  have hsum : loop i (i + p.entries.length) (0 : Complex R) (fun r k => do
        return r + (← entry v.1 i k) * (← entry t k (i + p.entries.length)))
      = .ok (Arith.sumOver (p.entries.zipIdx i) fun e => e.1 * t e.2 (i + p.entries.length)) := by
    refine loop_eq_foldl_zipIdx fun r k hk => ?_
    have hkn : i + k < n := by omega
    rw [entry_eq hi hkn, ok_bind, entry_eq hkn hj, ok_bind, hholds.entry k hk,
      List.getD_eq_getElem _ _ hk]
    rfl
  rw [leftStep, hsum, ok_bind, entry_eq hj hj, ok_bind]
  refine Carries.extend (isLine_row hi) hgrowth (hholds.concat (isLine_row hi) hj _) hj ?_ hj
  rw [List.length_append, List.length_singleton]
  omega

theorem rightEigenvector_eq (hi : i < n) (hc : c i i = 1) :
    ∃ b, rightEigenvector t c i = .ok b ∧
      Holds c b (fun k => k) (fun _ => i) 0 (t.rightEigenvector i) ∧
      0 + (t.rightEigenvector i).length = i + 1 := by
  obtain ⟨v, hv, hcarries⟩ := loopDown_rel
    (P := fun j v p => Carries c v (fun k => k) (fun _ => i) j (i + 1) p) (Nat.zero_le i)
    (Carries.start rfl rfl hc) fun j v p _ hj h => rightStep_eq (t := t) hi hj h
  rw [rightEigenvector, entry_eq hi hi, ok_bind, hv, ok_bind, t.rightEigenvector_eq]
  exact hcarries.finish (isLine_col hi) (by omega)

theorem leftEigenvector_eq (hi : i < n) (hc : c i i = 1) :
    ∃ b, leftEigenvector t c i = .ok b ∧
      Holds c b (fun _ => i) (fun k => k) i (t.leftEigenvector i) ∧
      i + (t.leftEigenvector i).length = n := by
  obtain ⟨v, hv, hcarries⟩ := loop_rel
    (P := fun j v p => Carries c v (fun _ => i) (fun k => k) i j p) (show i + 1 ≤ n by omega)
    (Carries.start rfl rfl hc) fun j v p _ hj h => leftStep_eq (t := t) hi hj h
  rw [leftEigenvector, entry_eq hi hi, ok_bind, hv, ok_bind, t.leftEigenvector_eq,
    show n - 1 - i = n - (i + 1) by omega]
  exact hcarries.finish (isLine_row hi) (Nat.le_refl n)

/-- The first right eigenvector, and the last left one, are those of the
identity: the loops leave them out. -/
theorem finish_start (hone : ((1 : R) == 1) = true) : Partial.start.finish = [(1 : Complex R)] :=
  if_pos hone

theorem rightEigenvectors_eq (hn : 0 < n) (hone : ((1 : R) == 1) = true) :
    rightEigenvectors t = .ok t.rightEigenvectors := by
  have hentry (r s : Nat) (hr : r < n) (hs : s < n) :
      t.rightEigenvectors r s = (t.rightEigenvector s).getD r 0 := by
    rw [DenseMatrix.rightEigenvectors, get_ofFn, if_pos ⟨hr, hs⟩, getD_ofFn _ _ hs]
  refine loop_overlay (fun i _ s => s < i) hn ?_ ?_ ?_
  · intro r s hr hs h
    obtain rfl : s = 0 := by omega
    have hfirst : t.rightEigenvector 0 = [1] := finish_start hone
    rw [hentry r 0 hr hs, get_identity hr hs, hfirst]
    cases r <;> rfl
  · intro r s _ hs h
    exact absurd hs h
  · intro i _ hi
    obtain ⟨b, hb, hholds, hlen⟩ := rightEigenvector_eq (t := t)
      (c := identity.overlay (fun _ s => s < i) t.rightEigenvectors) hi (by
        rw [get_overlay, if_neg (Nat.lt_irrefl i), get_identity hi hi, if_pos rfl])
    rw [hb]
    refine congrArg Except.ok (ext_of_get fun r s hr hs => ?_)
    rw [get_overlay]
    by_cases hsi : s = i
    · subst hsi
      rw [if_pos (Nat.lt_succ_self s), hentry r s hr hs]
      rcases Nat.lt_or_ge r (t.rightEigenvector s).length with hlt | hge
      · have h := hholds.entry r hlt
        rwa [Nat.zero_add] at h
      · rw [hholds.rest r s hr hs fun k hk h => by omega, get_overlay, if_neg (Nat.lt_irrefl s),
          get_identity hr hs, if_neg (by omega), List.getD_eq_default _ _ hge]
    · rw [hholds.rest r s hr hs fun k _ h => hsi h.2, get_overlay]
      exact if_congr (by omega) rfl rfl

theorem leftEigenvectors_eq (hn : 0 < n) (hone : ((1 : R) == 1) = true) :
    leftEigenvectors t = .ok t.leftEigenvectors := by
  have hentry (r s : Nat) (hr : r < n) (hs : s < n) : t.leftEigenvectors r s
      = if r ≤ s then (t.leftEigenvector r).getD (s - r) 0 else 0 := by
    rw [DenseMatrix.leftEigenvectors, get_ofFn, if_pos ⟨hr, hs⟩, getD_ofFn _ _ hr]
  refine loop_overlay (fun i r _ => r < i) (Nat.zero_le _) ?_ ?_ ?_
  · intro r s _ _ h
    exact absurd h (Nat.not_lt_zero r)
  · intro r s hr hs h
    obtain rfl : r = n - 1 := by omega
    have hlast : t.leftEigenvector (n - 1) = [1] := by
      rw [t.leftEigenvector_eq, Nat.sub_self]
      exact finish_start hone
    rw [hentry _ s hr hs, get_identity hr hs, hlast]
    by_cases hs' : s = n - 1
    · subst hs'
      rw [if_pos (Nat.le_refl _), if_pos rfl, Nat.sub_self]
      rfl
    · rw [if_neg (by omega), if_neg (by omega)]
  · intro i _ hi
    have hin : i < n := by omega
    obtain ⟨b, hb, hholds, hlen⟩ := leftEigenvector_eq (t := t)
      (c := identity.overlay (fun r _ => r < i) t.leftEigenvectors) hin (by
        rw [get_overlay, if_neg (Nat.lt_irrefl i), get_identity hin hin, if_pos rfl])
    rw [hb]
    refine congrArg Except.ok (ext_of_get fun r s hr hs => ?_)
    rw [get_overlay]
    by_cases hri : r = i
    · subst hri
      rw [if_pos (Nat.lt_succ_self r), hentry r s hr hs]
      split
      · next hle =>
          have h := hholds.entry (s - r) (by omega)
          rwa [Nat.add_sub_cancel' hle] at h
      · rw [hholds.rest r s hr hs fun k hk h => by omega, get_overlay, if_neg (Nat.lt_irrefl r),
          get_identity hr hs, if_neg (by omega)]
    · rw [hholds.rest r s hr hs fun k _ h => hri h.1, get_overlay]
      exact if_congr (by omega) rfl rfl

end Vectors

end Checked

end DenseNumeric
