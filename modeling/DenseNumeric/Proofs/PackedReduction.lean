import Mathlib.Data.List.Basic
import Mathlib.Data.Nat.Init
import DenseNumeric.Proofs.ZeroPattern

/-!
# Packed reductions

The reduction to Hessenberg form in the room of the matrix. A row that was
cleared has room for the vector of its reflection, all but the last coordinate,
which is kept apart: the entry at that place belongs to the Hessenberg form.

Such a packed matrix is read in two ways. Its upper part is the matrix of the
reduction, and its rows are the reflections (`Packed.unpack`). A packed step is
a step of the reduction, as reflections are applied to the rows above the one
they are kept in.
-/

namespace DenseNumeric

variable {R : Type} [Arith R] {n : Nat}

/-! ## Packed matrices -/

/-- A matrix with the vectors of reflections in the rows that were cleared,
and the last coordinates of these vectors. -/
structure Packed (n : Nat) (R : Type) where
  matrix : DenseMatrix n n (Complex R)
  heads : Vector (Option (Complex R)) n

namespace Reflection

/-- The reflection that row `i` of a matrix keeps but for its last coordinate. -/
def ofPacked (a : DenseMatrix n n (Complex R)) (i : Nat) (head : Complex R) : Reflection R :=
  ⟨i, ((Array.range (i - 1)).map (a i)).push head⟩

variable {a b : DenseMatrix n n (Complex R)} {i j k : Nat} {head : Complex R}

theorem coordinate_ofPacked (hi : 0 < i) (hk : k < i) :
    (ofPacked a i head).coordinate k = if k + 1 < i then a i k else head := by
  rw [ofPacked, coordinate_push _ _ _ _ (by omega)]
  congr 1
  exact propext (by omega)

/-- A vector is packed without loss. -/
theorem ofPacked_eq {f : Nat → Complex R} (h : ∀ k, k + 1 < i → a i k = f k) :
    ofPacked a i head = ⟨i, ((Array.range (i - 1)).map f).push head⟩ := by
  have hmap : (Array.range (i - 1)).map (a i) = (Array.range (i - 1)).map f :=
    Array.map_congr_left fun k hk => h k (by have := Array.mem_range.1 hk; omega)
  rw [ofPacked, hmap]

theorem sum_congr {v : Reflection R} {f g : Nat → Complex R} (hv : 0 < v.order)
    (h : ∀ k < v.order, f k = g k) : v.sum f = v.sum g := by
  rw [sum, sum, h _ (by omega)]
  refine List.foldl_ext _ _ _ fun z k hk => ?_
  rw [h k (by have := List.mem_range.1 hk; omega)]

theorem ofPacked_of_ofRow? {row : Nat → Complex R} {v : Reflection R} {x : Complex R}
    (h : ofRow? i row = some (v, x)) (ha : ∀ k, k + 1 < i → a i k = v.coordinate k) :
    ofPacked a i (v.coordinate (i - 1)) = v := by
  obtain ⟨f, y, rfl⟩ : ∃ f y, v = ⟨i, ((Array.range (i - 1)).map f).push y⟩ := by
    simp only [ofRow?] at h
    split at h
    · cases h
    · obtain ⟨rfl, -⟩ := Prod.mk.inj (Option.some.inj h)
      exact ⟨_, _, rfl⟩
  rw [coordinate_push _ _ _ _ (Nat.lt_succ_self _), if_neg (Nat.lt_irrefl _)]
  refine ofPacked_eq fun k hk => ?_
  rw [ha k hk, coordinate_push _ _ _ _ (by omega), if_pos (by omega)]

/-- A reflection changes the leading rows only, -/
theorem reflect_apply_of_le {v : Reflection R} (h : v.order ≤ j) (hj : j < n) (hk : k < n) :
    v.applyLeft n (v.applyRight a) j k = a j k := by
  rw [applyLeft_apply _ _ _ hj hk, if_neg (by omega), applyRight_apply _ _ hj hk,
    if_neg (by omega)]

/-- and sees no others. -/
theorem reflect_apply_congr {v : Reflection R} (hv : 0 < v.order) (hle : v.order ≤ n)
    (h : ∀ j k, j < v.order → k < n → a j k = b j k) (hj : j < v.order) (hk : k < n) :
    v.applyLeft n (v.applyRight a) j k = v.applyLeft n (v.applyRight b) j k := by
  have hright (j k : Nat) (hj : j < v.order) (hk : k < n) :
      v.applyRight a j k = v.applyRight b j k := by
    rw [applyRight_apply _ _ (by omega) hk, applyRight_apply _ _ (by omega) hk, h j k hj hk,
      sum_congr hv fun l hl => congrArg _ (h j l hj (by omega))]
  rw [applyLeft_apply _ _ _ (by omega) hk, applyLeft_apply _ _ _ (by omega) hk, hright j k hj hk,
    sum_congr hv fun l hl => congrArg _ (hright l k hl hk)]

end Reflection

namespace Packed

def reflection? (p : Packed n R) (j : Nat) : Option (Reflection R) :=
  (p.heads.getD j none).map (Reflection.ofPacked p.matrix j)

/-- What is packed when all rows from `i` on were cleared. -/
def unpack (p : Packed n R) (i : Nat) : Reduction n R where
  matrix := .ofFn fun j k => if i ≤ j ∧ k + 1 < j then 0 else p.matrix j k
  reflections := (List.range' i (n - i)).filterMap p.reflection?

/-- The matrix with the vector of a reflection in row `i`, and the value `x`
that is left of the row. -/
def packRow (a : DenseMatrix n n (Complex R)) (i : Nat) (v : Reflection R) (x : Complex R) :
    DenseMatrix n n (Complex R) :=
  .ofFn fun j k => if j = i ∧ k < i then if k + 1 < i then v.coordinate k else x else a j k

/-- One more row cleared, and its reflection packed. -/
def clearRow (p : Packed n R) (i : Nat) : Packed n R :=
  match Reflection.ofRow? i (p.matrix i) with
  | none => ⟨p.matrix.set i (i - 1) 0, p.heads.setIfInBounds i none⟩
  | some (v, x) =>
    ⟨v.applyLeft n (v.applyRight (packRow p.matrix i v x)),
      p.heads.setIfInBounds i (some (v.coordinate (i - 1)))⟩

section Unpacking

variable {p q : Packed n R} {i j k : Nat}

theorem reflection?_congr (hhead : p.heads.getD j none = q.heads.getD j none)
    (hrow : ∀ k, k + 1 < j → p.matrix j k = q.matrix j k) : p.reflection? j = q.reflection? j := by
  rw [reflection?, reflection?, hhead]
  exact congrArg (Option.map · _) (funext fun head => Reflection.ofPacked_eq hrow)

omit [Arith R] in
theorem getD_heads (hi : i < n) (o : Option (Complex R)) :
    (p.heads.setIfInBounds i o).getD j none = if j = i then o else p.heads.getD j none := by
  by_cases hj : j < n
  · simp [Vector.getD, hj, Array.getElem_setIfInBounds, eq_comm]
  · simp [Vector.getD, hj]
    omega

theorem unpack_apply (hj : j < n) (hk : k < n) :
    (p.unpack i).matrix j k = if i ≤ j ∧ k + 1 < j then 0 else p.matrix j k := by
  rw [unpack, DenseMatrix.get_ofFn, if_pos ⟨hj, hk⟩]

/-- A row that is not cleared yet is as it was packed. -/
theorem unpack_apply_row (h : j < i) : (p.unpack i).matrix j = p.matrix j := by
  funext k
  rw [unpack, DenseMatrix.get_ofFn]
  split
  · rw [if_neg (by omega)]
  · next hjk => rw [DenseMatrix.get_of_not hjk]

theorem unpack_reflections (hi : i < n) :
    (p.unpack i).reflections = (p.reflection? i).toList ++ (p.unpack (i + 1)).reflections := by
  obtain ⟨count, hcount⟩ : ∃ count, n - i = count + 1 := ⟨n - i - 1, by omega⟩
  rw [unpack, unpack, hcount, List.range'_succ, show n - (i + 1) = count by omega,
    List.filterMap_cons]
  cases p.reflection? i <;> rfl

/-- Rows below the one that is cleared keep their reflections. -/
theorem unpack_reflections_congr (hhead : ∀ j, i ≤ j → p.heads.getD j none = q.heads.getD j none)
    (hrow : ∀ j k, i ≤ j → j < n → k + 1 < j → p.matrix j k = q.matrix j k) :
    (p.unpack i).reflections = (q.unpack i).reflections :=
  List.filterMap_congr fun j hj => by
    have hj := List.mem_range'_1.1 hj
    exact reflection?_congr (hhead j hj.1) fun k hk => hrow j k hj.1 (by omega) hk

theorem unpack_clearRow (p : Packed n R) (hpos : 0 < i) (hi : i < n) :
    (p.clearRow i).unpack i = (p.unpack (i + 1)).clearRow i := by
  have hrow : (p.unpack (i + 1)).matrix i = p.matrix i := unpack_apply_row (Nat.lt_succ_self i)
  have hheads (o : Option (Complex R)) (j : Nat) (hj : i + 1 ≤ j) :
      (p.heads.setIfInBounds i o).getD j none = p.heads.getD j none := by
    rw [getD_heads hi, if_neg (by omega)]
  rw [clearRow]
  cases h : Reflection.ofRow? i (p.matrix i) with
  | none =>
      rw [Reduction.clearRow_of_none (hrow ▸ h)]
      refine congrArg₂ Reduction.mk (DenseMatrix.ext_of_get fun j k hj hk => ?_) ?_
      · rw [DenseMatrix.get_ofFn, if_pos ⟨hj, hk⟩, Reduction.withRow_apply _ _ _ hj hk,
          unpack_apply hj hk, DenseMatrix.get_set _ _ _ _ hj hk]
        grind
      · refine (unpack_reflections hi).trans ?_
        rw [reflection?, getD_heads hi, if_pos rfl]
        refine unpack_reflections_congr (hheads none) fun j k hj hjn hk => ?_
        rw [DenseMatrix.get_set _ _ _ _ hjn (by omega), if_neg (by omega)]
  | some vx =>
      obtain ⟨v, x⟩ := vx
      have horder := Reflection.order_of_ofRow? h
      rw [Reduction.clearRow_of_some (hrow ▸ h)]
      have hbelow (j k : Nat) (hij : i ≤ j) (hj : j < n) (hk : k < n) :
          v.applyLeft n (v.applyRight (packRow p.matrix i v x)) j k = packRow p.matrix i v x j k :=
        Reflection.reflect_apply_of_le (by omega) hj hk
      have hpackRow (j k : Nat) (hj : j < n) (hk : k < n) : packRow p.matrix i v x j k
          = if j = i ∧ k < i then if k + 1 < i then v.coordinate k else x else p.matrix j k := by
        rw [packRow, DenseMatrix.get_ofFn, if_pos ⟨hj, hk⟩]
      refine congrArg₂ Reduction.mk (DenseMatrix.ext_of_get fun j k hj hk => ?_) ?_
      · rw [DenseMatrix.get_ofFn, if_pos ⟨hj, hk⟩]
        rcases Nat.lt_or_ge j i with hlt | hge
        · rw [if_neg (by omega)]
          refine Reflection.reflect_apply_congr (by omega) (by omega) (fun j k hj hk => ?_)
            (by omega) hk
          rw [hpackRow j k (by omega) hk, Reduction.withRow_apply _ _ _ (by omega) hk,
            if_neg (by omega), if_neg (by omega), unpack_apply_row (by omega)]
        · rw [hbelow j k hge hj hk, hpackRow j k hj hk,
            Reflection.reflect_apply_of_le (by omega) hj hk, Reduction.withRow_apply _ _ _ hj hk,
            unpack_apply hj hk]
          grind
      · refine (unpack_reflections hi).trans ?_
        rw [reflection?, getD_heads hi, if_pos rfl]
        refine congrArg₂ List.cons ?_ ?_
        · refine Reflection.ofPacked_of_ofRow? h fun k hk => ?_
          rw [hbelow i k (Nat.le_refl i) hi (by omega), hpackRow i k hi (by omega),
            if_pos (by omega), if_pos hk]
        · refine unpack_reflections_congr (hheads _) fun j k hj hjn hk => ?_
          rw [hbelow j k (by omega) hjn (by omega), hpackRow j k hjn (by omega),
            if_neg (by omega)]

end Unpacking

/-- All rows cleared, from the bottom. -/
def ofMatrix (a : DenseMatrix n n (Complex R)) : Packed n R :=
  (List.range' 2 (n - 2)).reverse.foldl clearRow ⟨a, .replicate n none⟩

theorem unpack_foldl (p : Packed n R) {count : Nat} (h : count ≤ n - 2) :
    ((List.range' 2 count).reverse.foldl clearRow p).unpack 2
      = (List.range' 2 count).reverse.foldl Reduction.clearRow (p.unpack (2 + count)) := by
  induction count generalizing p with
  | zero => rfl
  | succ count ih =>
      rw [List.range'_1_concat, List.reverse_concat, List.foldl_cons, List.foldl_cons,
        ih _ (by omega), unpack_clearRow p (by omega) (by omega)]
      rfl

theorem unpack_ofMatrix (a : DenseMatrix n n (Complex R)) :
    (ofMatrix a).unpack 2 = .ofMatrix a := by
  have hstart (i : Nat) (hi : n ≤ i) :
      (⟨a, .replicate n none⟩ : Packed n R).unpack i = ⟨a, []⟩ := by
    refine congrArg₂ Reduction.mk (DenseMatrix.ext_of_get fun j k hj hk => ?_) ?_
    · rw [DenseMatrix.get_ofFn, if_pos ⟨hj, hk⟩, if_neg (by omega)]
    · rw [Nat.sub_eq_zero_of_le hi]
      rfl
  rw [ofMatrix, unpack_foldl _ (Nat.le_refl _), hstart _ (by omega)]
  rfl

/-- The product of the reflections in the rows above row `i`. -/
def basis (p : Packed n R) (i : Nat) : DenseMatrix n n (Complex R) :=
  ((List.range' 2 (i - 2)).filterMap p.reflection?).foldl (fun q v => v.applyLeft v.order q)
    .identity

theorem basis_succ (p : Packed n R) {i : Nat} (hi : 2 ≤ i) :
    p.basis (i + 1) = match p.reflection? i with
      | none => p.basis i
      | some v => v.applyLeft v.order (p.basis i) := by
  obtain ⟨c, rfl⟩ := Nat.exists_eq_add_of_le hi
  rw [basis, basis, show 2 + c + 1 - 2 = c + 1 by omega, Nat.add_sub_cancel_left,
    List.range'_1_concat, List.filterMap_append, List.foldl_append, List.filterMap_cons]
  cases p.reflection? (2 + c) <;> rfl

/-- Those reflections do not go as far as row or column `i - 1`. -/
theorem basis_apply (p : Packed n R) {i j k : Nat} (hi : 2 ≤ i) (hj : j < n) (hk : k < n)
    (h : i ≤ j + 1 ∨ i ≤ k + 1) : p.basis i j k = if j = k then 1 else 0 := by
  induction i, hi using Nat.le_induction with
  | base => exact DenseMatrix.get_identity hj hk
  | succ i hi ih =>
      rw [basis_succ p hi]
      cases hv : p.reflection? i with
      | none => exact ih (by omega)
      | some v =>
          have horder : v.order = i := by
            obtain ⟨head, -, rfl⟩ := Option.map_eq_some_iff.1 hv
            rfl
          rw [Reflection.applyLeft_apply _ _ _ hj hk, if_neg (by omega)]
          exact ih (by omega)

end Packed

end DenseNumeric
