import DenseNumeric.Proofs.CheckedLoops
import DenseNumeric.Proofs.PackedReduction

/-!
# The reduction within bounds

The reduction to Hessenberg form, carried out in place in a packed matrix. The
line that a reflection is applied to and the row that it is packed into are
different lines of one matrix, so the loops along the one leave the other as it
is (`reflectLine_eq`).

The product of the reflections is formed in place of them. It only needs the
leading part of the matrix, and a reflection is not looked up again after its
row was written over (`accumulate_eq`).
-/

namespace DenseNumeric

variable {R : Type} [Arith R] {n : Nat}

namespace Checked

open DenseMatrix

/-! ## Reflections -/

/-- One line of a product with the reflection in row `i`: the entries at
`row k` and `col k`, `k < i`, less a multiple of its vector. The coordinates
enter into the factor by way of `w`, and into the multiple by way of `w'`. -/
def reflectLine (a : DenseMatrix n n (Complex R)) (i : Nat) (head : Complex R)
    (w w' : Complex R → Complex R) (row col : Nat → Nat) :
    Checked (DenseMatrix n n (Complex R)) := do
  let last ← sub i 1
  let g ← loop 0 last (w head * (← entry a (row last) (col last))) fun g k => do
    return g + w (← entry a i k) * (← entry a (row k) (col k))
  let a ← update a (row last) (col last) ((← entry a (row last) (col last)) - g * w' head)
  loop 0 last a fun a k => do
    update a (row k) (col k) ((← entry a (row k) (col k)) - g * w' (← entry a i k))

/-- Multiplication from the right, in the rows above row `i`. -/
def reflectRight (a : DenseMatrix n n (Complex R)) (i : Nat) (head : Complex R) :
    Checked (DenseMatrix n n (Complex R)) :=
  loop 0 i a fun a j => reflectLine a i head Complex.conj id (fun _ => j) fun k => k

/-- Multiplication from the left, in the columns before `cols`. -/
def reflectLeft (a : DenseMatrix n n (Complex R)) (i cols : Nat) (head : Complex R) :
    Checked (DenseMatrix n n (Complex R)) :=
  loop 0 cols a fun a j => reflectLine a i head id Complex.conj (fun k => k) fun _ => j

/-! ## The reduction -/

/-- Packs a reflection into row `i`, where its vector is but for a factor, and
applies it. -/
def reflect (a : DenseMatrix n n (Complex R)) (i : Nat) (x head : Complex R) (shrink : R) :
    Checked (DenseMatrix n n (Complex R)) := do
  let last ← sub i 1
  let a ← update a i last x
  let a ← loop 0 last a fun a k => do update a i k ((← entry a i k).scale shrink)
  let a ← reflectRight a i head
  reflectLeft a i n head

/-- Clears row `i` left of its subdiagonal entry, and packs its reflection. -/
def clearRow (p : Packed n R) (i : Nat) : Checked (Packed n R) := do
  let last ← sub i 1
  let scale ← loop 0 i (0 : R) fun acc k => do return acc + (← entry p.matrix i k).taxicab
  let unscale := 1 / scale
  if scale == 0 || !Arith.isFinite unscale then
    return ⟨← update p.matrix i last 0, ← put p.heads i none⟩
  else
    let (a, square) ← loop 0 i (p.matrix, (0 : R)) fun (a, square) k => do
      let a ← update a i k ((← entry a i k).scale unscale)
      return (a, square + (← entry a i k).magnitudeSq)
    let z ← entry a i last
    let lastLength := z.magnitude
    let length := Arith.sqrt square
    let image : Complex R := ⟨-length * scale, 0⟩
    let phase := z.divReal lastLength
    let turn := !(lastLength == 0)
    let x := if turn then image * phase else image
    let shrink := 1 / Arith.sqrt (square + length * lastLength)
    let head := (if turn then z + phase.scale length else ⟨length, 0⟩).scale shrink
    return ⟨← reflect a i x head shrink, ← put p.heads i (some head)⟩

def reduce (a : DenseMatrix n n (Complex R)) : Checked (Packed n R) :=
  loopDown 2 n ⟨a, .replicate n none⟩ clearRow

/-- The product of the packed reflections, in place of them. -/
def accumulate (p : Packed n R) : Checked (DenseMatrix n n (Complex R)) := do
  let q := p.matrix
  if n = 1 then update q 0 0 1
  else
    let q ← update q 0 0 1
    let q ← update q 1 1 1
    let q ← update q 0 1 0
    let q ← update q 1 0 0
    loop 2 n q fun q i => do
      let q ← match ← fetch p.heads i with
        | none => pure q
        | some head => reflectLeft q i i head
      let q ← update q i i 1
      loop 0 i q fun q j => do
        let q ← update q j i 0
        update q i j 0

def clearBelow (a : DenseMatrix n n (Complex R)) : Checked (DenseMatrix n n (Complex R)) :=
  loop 0 n a fun a col => loop (col + 2) n a fun a row => update a row col 0

def hessenberg (a : DenseMatrix n n (Complex R)) (withBasis : Bool) : Checked (Similar n R) := do
  let p ← reduce a
  let q ← if withBasis then some <$> accumulate p else pure none
  return ⟨← clearBelow p.matrix, q⟩

section Reflections

variable {a b : DenseMatrix n n (Complex R)} {i : Nat} {head : Complex R} {v : Reflection R}

/-- The line lies in rows other than row `i`, so that the vector is still there
when the entries are written. -/
theorem reflectLine_eq {w w' : Complex R → Complex R} {row col : Nat → Nat} (hpos : 0 < i)
    (hi : i < n) (hv : Reflection.ofPacked a i head = v)
    (hin : ∀ k < i, row k < n ∧ row k ≠ i ∧ col k < n)
    (hdistinct : ∀ k < i, ∀ l < i, row k = row l ∧ col k = col l → k = l)
    (hnew : ∀ k < i, b (row k) (col k) = a (row k) (col k)
      - (v.sum fun l => w (v.coordinate l) * a (row l) (col l)) * w' (v.coordinate k))
    (hold : ∀ r s, r < n → s < n → (∀ k < i, ¬(r = row k ∧ s = col k)) → b r s = a r s) :
    reflectLine a i head w w' row col = .ok b := by
  obtain ⟨last, rfl⟩ := Nat.exists_eq_add_of_le' hpos
  have hlast : last < last + 1 := Nat.lt_succ_self last
  obtain ⟨hrow, hne, hcol⟩ := hin last hlast
  have hcoord (k : Nat) (hk : k < last) : v.coordinate k = a (last + 1) k := by
    rw [← hv, Reflection.coordinate_ofPacked hpos (by omega), if_pos (by omega)]
  have hhead : v.coordinate last = head := by
    rw [← hv, Reflection.coordinate_ofPacked hpos (by omega), if_neg (by omega)]
  generalize hg : v.sum (fun l => w (v.coordinate l) * a (row l) (col l)) = g at hnew
  have hsum : loop 0 last (w head * a (row last) (col last)) (fun g k => do
        return g + w (← entry a (last + 1) k) * (← entry a (row k) (col k))) = .ok g := by
    have horder : v.order = last + 1 := hv ▸ rfl
    rw [← hg, Reflection.sum, horder, Nat.add_sub_cancel, hhead, List.range_eq_range']
    refine loop_eq_foldl fun g k _ hk => ?_
    obtain ⟨hrow, -, hcol⟩ := hin k (by omega)
    rw [entry_eq hi (by omega), ok_bind, entry_eq hrow hcol, hcoord k hk]
    rfl
  rw [reflectLine, sub_eq_ok hpos, ok_bind, Nat.add_sub_cancel, entry_eq hrow hcol, ok_bind, hsum,
    ok_bind, ok_bind, update_eq hrow hcol, ok_bind]
  refine loop_update_eq row col (fun k => a (row k) (col k) - g * w' (v.coordinate k))
    (Nat.zero_le _) ?_ ?_ ?_ ?_
  · intro k _ hk
    exact ⟨(hin k (by omega)).1, (hin k (by omega)).2.2⟩
  · intro c k _ hk hc
    obtain ⟨hrowk, -, hcolk⟩ := hin k (by omega)
    have hentry : c (row k) (col k) = a (row k) (col k) := by
      rw [hc _ _ fun l _ hl h => ?_, get_set _ _ _ _ hrowk hcolk, if_neg fun h => ?_]
      · have := hdistinct k (by omega) last hlast h
        omega
      · have := hdistinct k (by omega) l (by omega) h
        omega
    have hvector : c (last + 1) k = a (last + 1) k := by
      rw [hc _ _ fun l _ hl h => (hin l (by omega)).2.1 h.1.symm,
        get_set _ _ _ _ hi (by omega), if_neg fun h => hne h.1.symm]
    rw [entry_eq hrowk hcolk, ok_bind, entry_eq hi (by omega), ok_bind, hentry, hvector,
      hcoord k hk]
  · intro k _ hk
    exact hnew k (by omega)
  · intro r s hr hs h
    rw [get_set _ _ _ _ hr hs]
    split
    · next hrs =>
        rw [hrs.1, hrs.2, hnew last hlast, hhead]
    · next hrs =>
        refine hold r s hr hs fun k hk hrs' => ?_
        rcases Nat.lt_succ_iff_lt_or_eq.1 hk with hk | rfl
        · exact h k (Nat.zero_le _) hk hrs'
        · exact hrs hrs'

theorem reflectRight_eq (hpos : 0 < i) (hi : i < n) (hv : Reflection.ofPacked a i head = v) :
    reflectRight a i head = .ok (v.applyRight a) := by
  have horder : v.order = i := hv ▸ rfl
  refine loop_overlay (fun j r _ => r < j) (Nat.zero_le _) ?_ ?_ ?_
  · intro r s _ _ hdone
    omega
  · intro r s hr hs hdone
    rw [Reflection.applyRight_apply _ _ hr hs, if_neg (by omega)]
  · intro j _ hj
    have hold (r s : Nat) (hr : ¬r < j) :
        (a.overlay (fun r _ => r < j) (v.applyRight a)) r s = a r s := by
      rw [get_overlay, if_neg hr]
    refine reflectLine_eq (v := v) hpos hi
      ((Reflection.ofPacked_eq fun k _ => hold i k (by omega)).trans hv) ?_ ?_ ?_ ?_
    · intro k hk
      omega
    · intro k _ l _ h
      exact h.2
    · intro k hk
      simp only [hold j _ (Nat.lt_irrefl j)]
      rw [get_overlay, if_pos (Nat.lt_succ_self j),
        Reflection.applyRight_apply _ _ (by omega) (by omega), if_pos (by omega)]
      rfl
    · intro r s hr hs h
      rw [get_overlay, get_overlay]
      rcases Nat.lt_trichotomy r j with hrj | rfl | hrj
      · rw [if_pos (by omega), if_pos hrj]
      · have hs' : ¬s < i := fun hlt => h s hlt ⟨rfl, rfl⟩
        rw [if_pos (by omega), if_neg (by omega), Reflection.applyRight_apply _ _ hr hs,
          if_neg (by omega)]
      · rw [if_neg (by omega), if_neg (by omega)]

theorem reflectLeft_eq {cols : Nat} (hpos : 0 < i) (hi : i < n) (hcols : cols ≤ n)
    (hv : Reflection.ofPacked a i head = v) :
    reflectLeft a i cols head = .ok (v.applyLeft cols a) := by
  have horder : v.order = i := hv ▸ rfl
  refine loop_overlay (fun j _ s => s < j) (Nat.zero_le _) ?_ ?_ ?_
  · intro r s _ _ hdone
    omega
  · intro r s hr hs hdone
    rw [Reflection.applyLeft_apply _ _ _ hr hs, if_neg (by omega)]
  · intro j _ hj
    have hold (r s : Nat) (hr : r < n) (hs : s < n) (h : i ≤ r ∨ ¬s < j) :
        (a.overlay (fun _ s => s < j) (v.applyLeft cols a)) r s = a r s := by
      rw [get_overlay]
      split
      · rw [Reflection.applyLeft_apply _ _ _ hr hs, if_neg (by omega)]
      · rfl
    refine reflectLine_eq (v := v) hpos hi ((Reflection.ofPacked_eq fun k _ =>
      hold i k hi (by omega) (.inl (Nat.le_refl i))).trans hv) ?_ ?_ ?_ ?_
    · intro k hk
      omega
    · intro k _ l _ h
      exact h.1
    · intro k hk
      have hcol (k : Nat) (hk : k < i) :
          (a.overlay (fun _ s => s < j) (v.applyLeft cols a)) k j = a k j :=
        hold k j (by omega) (by omega) (.inr (Nat.lt_irrefl j))
      rw [Reflection.sum_congr (by omega) fun l hl => congrArg _ (hcol l (by omega)), hcol k hk,
        get_overlay, if_pos (Nat.lt_succ_self j),
        Reflection.applyLeft_apply _ _ _ (by omega) (by omega), if_pos (by omega)]
      rfl
    · intro r s hr hs h
      rw [get_overlay, get_overlay]
      rcases Nat.lt_trichotomy s j with hsj | rfl | hsj
      · rw [if_pos (by omega), if_pos hsj]
      · have hr' : ¬r < i := fun hlt => h r hlt ⟨rfl, rfl⟩
        rw [if_pos (by omega), if_neg (by omega), Reflection.applyLeft_apply _ _ _ hr hs,
          if_neg (by omega)]
      · rw [if_neg (by omega), if_neg (by omega)]

end Reflections

/-- A row is scaled, and the squared length of the result is summed up. -/
theorem scaleRow_eq (a : DenseMatrix n n (Complex R)) {i : Nat} (hi : i < n) (u : R) :
    loop 0 i (a, (0 : R)) (fun (a, square) k => do
        let a ← update a i k ((← entry a i k).scale u)
        return (a, square + (← entry a i k).magnitudeSq))
      = .ok ((.ofFn fun r s => if r = i ∧ s < i then (a i s).scale u else a r s),
          Arith.sumOver (List.range i) fun k => ((a i k).scale u).magnitudeSq) := by
  let f (k : Nat) : DenseMatrix n n (Complex R) × R :=
    (.ofFn fun r s => if r = i ∧ s < k then (a i s).scale u else a r s,
      Arith.sumOver (List.range k) fun k => ((a i k).scale u).magnitudeSq)
  have hstart : (a, (0 : R)) = f 0 := by
    refine Prod.ext (ext_of_get fun r s hr hs => ?_) rfl
    rw [get_ofFn, if_pos ⟨hr, hs⟩, if_neg (by omega)]
  rw [hstart]
  refine loop_eq (f := f) (Nat.zero_le i) fun k _ hk => ?_
  have hkn : k < n := by omega
  have hentry : (f k).1 i k = a i k := by rw [get_ofFn, if_pos ⟨hi, hkn⟩, if_neg (by omega)]
  simp only [entry_eq, update_eq, hi, hkn, ok_bind, hentry, get_set]
  refine congrArg Except.ok (Prod.ext (ext_of_get fun r s hr hs => ?_) ?_)
  · simp only [f, get_set, get_ofFn, hr, hs]
    grind
  · simp only [f, Arith.sumOver, List.range_succ, List.foldl_concat, and_self, if_true]

/-- The vector is in the row before the reflection is applied, and afterwards:
row `i` is not among those that are changed. -/
theorem reflect_eq {a : DenseMatrix n n (Complex R)} {i : Nat} {x head : Complex R} {shrink : R}
    {v : Reflection R} {y : Nat → Complex R} (hpos : 0 < i) (hi : i < n)
    (hrow : ∀ k, k + 1 < i → a i k = y k)
    (hv : v = ⟨i, ((Array.range (i - 1)).map fun k => (y k).scale shrink).push head⟩) :
    reflect a i x head shrink = .ok (v.applyLeft n (v.applyRight (Packed.packRow a i v x))) := by
  have hsub : sub i 1 = .ok (i - 1) := sub_eq_ok hpos
  have hlast : i - 1 < n := by omega
  have hcoord (k : Nat) (hk : k + 1 < i) : v.coordinate k = (y k).scale shrink := by
    rw [hv, Reflection.coordinate_push _ _ _ _ (by omega), if_pos (by omega)]
  have hpackRow (k : Nat) (hk : k + 1 < i) : Packed.packRow a i v x i k = v.coordinate k := by
    rw [Packed.packRow, get_ofFn, if_pos (by omega), if_pos (by omega), if_pos hk]
  have hloop : loop 0 (i - 1) (a.set i (i - 1) x) (fun a k => do
      update a i k ((← entry a i k).scale shrink)) = .ok (Packed.packRow a i v x) := by
    refine loop_update_eq (fun _ => i) (fun k => k) v.coordinate (Nat.zero_le _) ?_ ?_ ?_ ?_
    · intro k _ hk
      omega
    · intro c k _ hk hc
      have hentry : c i k = y k := by
        rw [hc i k (by omega), get_set _ _ _ _ hi (by omega), if_neg (by omega),
          hrow k (by omega)]
      rw [entry_eq hi (by omega), ok_bind, hentry, hcoord k (by omega)]
    · intro k _ hk
      exact hpackRow k (by omega)
    · intro r s hr hs h
      rw [Packed.packRow, get_ofFn, if_pos ⟨hr, hs⟩, get_set _ _ _ _ hr hs]
      by_cases hrs : r = i ∧ s = i - 1
      · rw [if_pos (by omega), if_neg (by omega), if_pos hrs]
      · have hlt : ¬(r = i ∧ s < i) := fun h' => h s (Nat.zero_le s) (by omega) ⟨h'.1, rfl⟩
        rw [if_neg hlt, if_neg hrs]
  have hpacked {c : DenseMatrix n n (Complex R)} (hc : ∀ k, k + 1 < i → c i k = v.coordinate k) :
      Reflection.ofPacked c i head = v := by
    rw [hv]
    exact Reflection.ofPacked_eq fun k hk => (hc k hk).trans (hcoord k hk)
  rw [reflect, hsub, ok_bind, update_eq hi hlast, ok_bind, hloop, ok_bind,
    reflectRight_eq hpos hi (hpacked hpackRow), ok_bind,
    reflectLeft_eq hpos hi (Nat.le_refl n) (hpacked fun k hk => ?_)]
  have horder : v.order = i := congrArg Reflection.order hv
  rw [Reflection.applyRight_apply _ _ hi (by omega), if_neg (by omega), hpackRow k hk]

theorem clearRow_eq (p : Packed n R) {i : Nat} (hpos : 0 < i) (hi : i < n) :
    clearRow p i = .ok (p.clearRow i) := by
  have hsub : sub i 1 = .ok (i - 1) := sub_eq_ok hpos
  have hlast : i - 1 < n := by omega
  have hscale : loop 0 i (0 : R) (fun acc k => do return acc + (← entry p.matrix i k).taxicab)
      = .ok (Arith.sumOver (List.range i) fun k => (p.matrix i k).taxicab) := by
    rw [Arith.sumOver, List.range_eq_range']
    refine loop_eq_foldl fun acc k _ hk => ?_
    rw [entry_eq hi (by omega)]
    rfl
  rw [clearRow, hsub, ok_bind, hscale, ok_bind, Packed.clearRow, Reflection.ofRow?]
  generalize Arith.sumOver (List.range i) (fun k => (p.matrix i k).taxicab) = scale
  by_cases hnone : (scale == 0 || !Arith.isFinite (1 / scale)) = true
  · rw [if_pos hnone, if_pos hnone, update_eq hi hlast, ok_bind, put_eq hi]
    rfl
  · rw [if_neg hnone, if_neg hnone, scaleRow_eq _ hi, ok_bind]
    generalize hb : (DenseMatrix.ofFn fun r s =>
      if r = i ∧ s < i then (p.matrix i s).scale (1 / scale) else p.matrix r s) = b
    have hrow (k : Nat) (hk : k < i) : b i k = (p.matrix i k).scale (1 / scale) := by
      rw [← hb, get_ofFn, if_pos (by omega), if_pos (by omega)]
    simp only [entry_eq, hi, hlast, ok_bind, hrow (i - 1) (by omega)]
    rw [reflect_eq hpos hi (fun k hk => hrow k (by omega)) rfl, ok_bind, put_eq hi]
    have hpack (v : Reflection R) (x : Complex R) :
        Packed.packRow b i v x = Packed.packRow p.matrix i v x := by
      refine ofFn_congr fun r s hr hs => ?_
      split
      · rfl
      · next h => rw [← hb, get_ofFn, if_pos ⟨hr, hs⟩, if_neg h]
    rw [hpack]
    refine congrArg Except.ok (congrArg (Packed.mk _) (congrArg _ (congrArg some ?_)))
    rw [Reflection.coordinate_push _ _ _ _ (by omega), if_neg (Nat.lt_irrefl _)]

theorem reduce_eq (a : DenseMatrix n n (Complex R)) : reduce a = .ok (.ofMatrix a) :=
  loopDown_eq_foldl fun p _ hi hlt => clearRow_eq p (by omega) hlt

/-- The product so far is the corner of a matrix that holds the other
reflections in its rows yet. -/
theorem accumulate_eq (hn : 0 < n) (p : Packed n R) : accumulate p = .ok (p.basis n) := by
  rw [accumulate]
  by_cases hone : n = 1
  · subst hone
    rw [if_pos rfl, update_eq hn hn]
    refine congrArg Except.ok (ext_of_get fun j k hj hk => ?_)
    obtain rfl : j = 0 := by omega
    obtain rfl : k = 0 := by omega
    rw [get_set _ _ _ _ hn hn, if_pos ⟨rfl, rfl⟩]
    exact (get_identity hn hn).symm
  · have h1 : 1 < n := by omega
    let f (i : Nat) : DenseMatrix n n (Complex R) :=
      p.matrix.overlay (fun j k => j < i ∧ k < i) (p.basis i)
    have hstart : (((p.matrix.set 0 0 1).set 1 1 1).set 0 1 0).set 1 0 0 = f 2 := by
      refine ext_of_get fun j k hj hk => ?_
      have hcorner : p.basis 2 j k = if j = k then 1 else 0 := get_identity hj hk
      simp only [f, get_overlay, get_set, hj, hk]
      grind
    have hend : f n = p.basis n := overlay_eq_right fun j k hj hk h => absurd ⟨hj, hk⟩ h
    rw [if_neg hone, update_eq hn hn, ok_bind, update_eq h1 h1, ok_bind, update_eq hn h1, ok_bind,
      update_eq h1 hn, ok_bind, hstart, ← hend]
    refine loop_eq (f := f) (by omega) fun i hi hin => ?_
    rw [fetch_eq hin none, ok_bind]
    have hbasis (j k : Nat) (hj : j < n) (hk : k < n) (h : i ≤ j ∨ i ≤ k) :
        p.basis (i + 1) j k = if j = k then 1 else 0 :=
      p.basis_apply (by omega) hj hk (by omega)
    -- the leading part of row and column `i` is written last
    have hrest {q : DenseMatrix n n (Complex R)} (hq : ∀ j k, j < n → k < n →
          q j k = if j < i ∧ k < i then p.basis (i + 1) j k else p.matrix j k) :
        (do let q ← update q i i 1
            loop 0 i q fun q j => do
              let q ← update q j i 0
              update q i j 0) = .ok (f (i + 1)) := by
      rw [update_eq hin hin, ok_bind]
      refine loop_overlay (fun l j k => j < l ∧ k = i ∨ j = i ∧ k < l) (Nat.zero_le i) ?_ ?_ ?_
      · intro j k _ _ h
        omega
      · intro j k hj hk h
        simp only [f, get_overlay, get_set, hj, hk, hq]
        grind
      · intro l _ hl
        have hln : l < n := by omega
        simp only [update_eq, hin, hln, ok_bind]
        refine congrArg Except.ok (ext_of_get fun j k hj hk => ?_)
        simp only [f, get_overlay, get_set, hj, hk]
        grind
    cases hhead : p.heads.getD i none with
    | none =>
        have hnone : p.reflection? i = none := by rw [Packed.reflection?, hhead, Option.map_none]
        refine hrest fun j k _ _ => ?_
        rw [p.basis_succ hi, hnone]
        exact get_overlay _
    | some head =>
        obtain ⟨v, hv⟩ : ∃ v, Reflection.ofPacked p.matrix i head = v := ⟨_, rfl⟩
        have horder : v.order = i := hv ▸ rfl
        have hsome : p.reflection? i = some v := by
          rw [Packed.reflection?, hhead, Option.map_some, hv]
        have hcorner (j k : Nat) (h : j < i ∧ k < i) : f i j k = p.basis i j k :=
          (get_overlay _).trans (if_pos h)
        have hrow (k : Nat) (_ : k + 1 < i) : f i i k = p.matrix i k :=
          (get_overlay _).trans (if_neg fun h => Nat.lt_irrefl i h.1)
        simp only
        rw [reflectLeft_eq (by omega) hin (by omega) ((Reflection.ofPacked_eq hrow).trans hv),
          ok_bind]
        refine hrest fun j k hj hk => ?_
        rw [p.basis_succ hi, hsome, Reflection.applyLeft_apply _ _ _ hj hk, horder]
        split
        · next h =>
            rw [Reflection.applyLeft_apply _ _ _ hj hk, horder, if_pos h, hcorner j k h,
              Reflection.sum_congr (by omega) fun l hl => congrArg _ (hcorner l k (by omega))]
        · next h => exact (get_overlay _).trans (if_neg h)

theorem clearBelow_eq (p : Packed n R) : clearBelow p.matrix = .ok (p.unpack 2).matrix := by
  refine loop_cols_eq fun col hcol => ?_
  have hstep (j k : Nat) (hj : j < n) (hk : k < n) (h : ¬(col + 2 ≤ j ∧ k = col)) :
      (p.matrix.overlay (fun _ k => k < col + 1) (p.unpack 2).matrix) j k
        = (p.matrix.overlay (fun _ k => k < col) (p.unpack 2).matrix) j k := by
    rw [get_overlay, get_overlay, Packed.unpack_apply hj hk]
    grind
  rcases Nat.lt_or_ge n (col + 2) with hlt | hle
  · rw [loop_of_le (by omega)]
    exact congrArg Except.ok
      (ext_of_get fun j k hj hk => (hstep j k hj hk (by omega)).symm)
  · refine loop_update_eq (fun j => j) (fun _ => col) (fun _ => 0) hle ?_ ?_ ?_ ?_
    · exact fun j _ hj => ⟨hj, hcol⟩
    · exact fun _ _ _ _ _ => rfl
    · intro j hj hjn
      rw [get_overlay, if_pos (Nat.lt_succ_self col), Packed.unpack_apply hjn hcol,
        if_pos (by omega)]
    · exact fun j k hj hk h => hstep j k hj hk fun hjk => h j hjk.1 hj ⟨rfl, hjk.2⟩

theorem hessenberg_eq (hn : 0 < n) (a : DenseMatrix n n (Complex R)) (withBasis : Bool) :
    hessenberg a withBasis = .ok (a.hessenberg withBasis) := by
  have hbasis : (Packed.ofMatrix a).basis n = (Reduction.ofMatrix a).basis := by
    rw [← Packed.unpack_ofMatrix]
    rfl
  rw [hessenberg, reduce_eq, ok_bind, clearBelow_eq, Packed.unpack_ofMatrix, DenseMatrix.hessenberg]
  cases withBasis with
  | false => rfl
  | true =>
      rw [if_pos rfl, accumulate_eq hn, hbasis]
      rfl

end Checked

end DenseNumeric
