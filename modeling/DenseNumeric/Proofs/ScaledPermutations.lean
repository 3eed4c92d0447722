import Mathlib
import DenseNumeric.NumArray.Decomposition
import DenseNumeric.Proofs.CheckedElimination
import DenseNumeric.Proofs.Elements
import DenseNumeric.Proofs.Narrowing
import DenseNumeric.Proofs.RealOperands

/-!
# Inverses of scaled permutations

A matrix with one number other than zero in each row and in each column has an
inverse of the same kind, and elimination finds it with no rounding but that of
one quotient for each number. The fact that carries this is that nothing is ever
subtracted: a column has a single candidate for its pivot, whichever way it is
looked for, and all other rows are clear in that column. So a step does no more
than bring a row to its place and divide it (`IsSortedUpTo`).

Zeros may have either sign, in the matrix and after every division. A number
whose inverse is out of range does no harm either, as the infinity that it
leaves is never multiplied with anything.
-/

namespace DenseNumeric

namespace Binary

variable {x y : Float}

/-! ## Zeros of either sign -/

theorem Matches.beq_zero (h : Matches x 0) : (x == 0) = true := by
  rcases h with h | ⟨-, hnan⟩
  · exact h
  · cases hnan

theorem zero_div_beq_zero (hx : (x == 0) = true) (hy : y.isFinite = true) (h0 : (y == 0) = false) :
    (x / y == 0) = true := by
  have hzero : Matches x 0 := .inl hx
  exact ((hzero.div y).trans (matches_zero_div hy (toReal_ne_zero_of_beq hy h0))).beq_zero

theorem size_spec (hx : x.isFinite = true) :
    (Entry.size x : Float).isFinite = true ∧ toReal (Entry.size x) = |toReal x| :=
  abs_spec hx

/-- The size of a zero is not above anything that is not negative. -/
theorem not_lt_size_of_beq_zero (hy : y.isFinite = true) (hy0 : 0 ≤ toReal y)
    (hx : (x == 0) = true) : ¬y < Entry.size x := by
  have hfinite := isFinite_of_beq_zero hx
  obtain ⟨hsize, hvalue⟩ := size_spec hfinite
  rw [float_lt_iff hy hsize, hvalue, (float_beq_iff hfinite isFinite_zero).1 hx, toReal_zero,
    abs_zero]
  exact not_lt.2 hy0

theorem zero_lt_size (hx : x.isFinite = true) (h0 : (x == 0) = false) :
    (0 : Float) < Entry.size x := by
  obtain ⟨hsize, hvalue⟩ := size_spec hx
  rw [float_lt_iff isFinite_zero hsize, hvalue, toReal_zero]
  exact abs_pos.2 (toReal_ne_zero_of_beq hx h0)

end Binary

namespace DenseMatrix

open Binary

variable {m n : Nat}

/-! ## The only candidate for a pivot -/

/-- What the search for the largest entry has found, when all rows before `j`
have been looked at and row `r` is the only one that is not clear. -/
theorem foldl_largest_of_single {a : DenseMatrix m n Float} {c r : Nat} (hcr : c ≤ r)
    (hfinite : (a r c).isFinite = true) (hne : (a r c == 0) = false) {count : Nat}
    (hzero : ∀ s, c ≤ s → s < c + count → s ≠ r → (a s c == 0) = true) :
    (List.range' c count).foldl
        (fun best s => if best.2 < Entry.size (a s c) then (s, Entry.size (a s c)) else best)
        (c, (0 : Float))
      = if r < c + count then (r, Entry.size (a r c)) else (c, 0) := by
  obtain ⟨hsize, hvalue⟩ := size_spec hfinite
  refine foldl_ascending (P := fun j best =>
    best = if r < j then (r, Entry.size (a r c)) else (c, 0)) ?_ ?_
  · rw [if_neg (Nat.not_lt.2 hcr)]
  · rintro j _ hj hj' rfl
    rcases Nat.lt_trichotomy r j with hlt | rfl | hgt
    · have hclear := hzero j hj hj' hlt.ne'
      rw [if_pos hlt, if_pos (Nat.lt_succ_of_lt hlt), if_neg]
      exact not_lt_size_of_beq_zero hsize (hvalue ▸ abs_nonneg _) hclear
    · rw [if_neg (Nat.lt_irrefl r), if_pos (Nat.lt_succ_self r), if_pos (zero_lt_size hfinite hne)]
    · have hclear := hzero j hj hj' hgt.ne
      rw [if_neg (Nat.not_lt.2 hgt.le), if_neg (Nat.not_lt.2 hgt), if_neg]
      exact not_lt_size_of_beq_zero isFinite_zero toReal_zero.ge hclear

theorem pivotRow?_of_single {a : DenseMatrix m n Float} {c r : Nat} (hcr : c ≤ r) (hr : r < m)
    (hfinite : (a r c).isFinite = true) (hne : (a r c == 0) = false)
    (hzero : ∀ s, c ≤ s → s < m → s ≠ r → (a s c == 0) = true) (pivoting : Pivoting) :
    a.pivotRow? pivoting c = some r := by
  cases pivoting with
  | firstNonzero =>
      rw [pivotRow?, List.find?_range'_eq_some]
      refine ⟨by rw [hne]; rfl, List.mem_range'_1.2 (by omega), fun s hcs hsr => ?_⟩
      rw [hzero s hcs (hsr.trans hr) hsr.ne]
      rfl
  | largest =>
      have hbest := foldl_largest_of_single hcr hfinite hne
        fun s hcs (hs : s < c + (m - c)) => hzero s hcs (by omega)
      rw [if_pos (show r < c + (m - c) by omega)] at hbest
      simp only [pivotRow?]
      rw [hbest, if_pos (zero_lt_size hfinite hne)]

/-! ## Rows brought to their places -/

/-- Row `i` has `d i` in column `σ i`, and zeros of either sign elsewhere. -/
structure IsScaledPermutation (a : DenseMatrix n n Float) (σ : Equiv.Perm (Fin n))
    (d : Fin n → Float) : Prop where
  isFinite : ∀ i, (d i).isFinite = true
  ne_zero : ∀ i, (d i == 0) = false
  apply_self : ∀ i : Fin n, a i (σ i) = d i
  apply_of_ne : ∀ i j : Fin n, j ≠ σ i → (a i j == 0) = true

/-- The rows of a matrix and of the identity beside it in the order `π`. Those
before row `c` are in their places, and divided by the number they have. -/
structure IsSortedUpTo (a : DenseMatrix n n Float) (σ : Equiv.Perm (Fin n)) (d : Fin n → Float)
    (c : Nat) (π : Equiv.Perm (Fin n)) (b : DenseMatrix n (2 * n) Float) : Prop where
  placed : ∀ r : Fin n, (r : Nat) < c → σ (π r) = r
  apply : ∀ (r : Fin n) (j : Nat), j < 2 * n → b r j =
    if (r : Nat) < c then a.besideIdentity (π r) j / d (π r) else a.besideIdentity (π r) j

theorem besideIdentity_left (a : DenseMatrix n n Float) (i j : Fin n) :
    a.besideIdentity i j = a i j := by
  rw [besideIdentity, apply_of_lt _ i.isLt (by omega), if_pos j.isLt]

theorem besideIdentity_right (a : DenseMatrix n n Float) (i j : Fin n) :
    a.besideIdentity i (n + j) = if j = i then 1 else 0 := by
  rw [besideIdentity, apply_of_lt _ i.isLt (by omega), if_neg (by omega)]
  exact if_congr (by omega) rfl rfl

namespace IsSortedUpTo

variable {a : DenseMatrix n n Float} {σ π : Equiv.Perm (Fin n)} {d : Fin n → Float} {c : Nat}
  {b : DenseMatrix n (2 * n) Float}

theorem start (a : DenseMatrix n n Float) (σ : Equiv.Perm (Fin n)) (d : Fin n → Float) :
    IsSortedUpTo a σ d 0 1 a.besideIdentity :=
  ⟨fun _ hr => absurd hr (Nat.not_lt_zero _), fun _ _ _ => rfl⟩

/-- A row is clear in every column but its own. -/
theorem apply_beq_zero (h : IsSortedUpTo a σ d c π b) (ha : a.IsScaledPermutation σ d)
    {r j : Fin n} (hrj : j ≠ σ (π r)) : (b r j == 0) = true := by
  have hzero := ha.apply_of_ne (π r) j hrj
  rw [h.apply r j (by omega), besideIdentity_left]
  split
  · exact zero_div_beq_zero hzero (ha.isFinite _) (ha.ne_zero _)
  · exact hzero

/-- The row that belongs in place `c` is not before it. -/
theorem le_of_placed (h : IsSortedUpTo a σ d c π b) {r : Fin n} (hr : σ (π r) = c) :
    c ≤ r := by
  by_contra! hlt
  have := congrArg Fin.val (h.placed r hlt)
  omega

theorem swapRows (h : IsSortedUpTo a σ d c π b) {r : Fin n} (hc : c < n) (hcr : c ≤ r) :
    IsSortedUpTo a σ d c (π * Equiv.swap ⟨c, hc⟩ r) (b.swapRows c r) := by
  have hplace (i : Fin n) : ((Equiv.swap ⟨c, hc⟩ r i : Fin n) : Nat)
      = if (i : Nat) = c then (r : Nat) else if (i : Nat) = r then c else i := by
    rw [Equiv.swap_apply_def]
    simp only [Fin.ext_iff, apply_ite Fin.val]
  refine ⟨fun i hi => ?_, fun i j hj => ?_⟩
  · -- what is in place already is neither of the two rows
    have hfixed : Equiv.swap ⟨c, hc⟩ r i = i := by
      refine Fin.ext ((hplace i).trans ?_)
      rw [if_neg (by omega), if_neg (by omega)]
    rw [Equiv.Perm.mul_apply, hfixed]
    exact h.placed i hi
  · rw [DenseMatrix.swapRows, apply_of_lt _ i.isLt hj, ← hplace, h.apply _ j hj,
      Equiv.Perm.mul_apply]
    refine if_congr ?_ rfl rfl
    rw [hplace]
    split_ifs <;> omega

/-- Clearing a column divides the row that is now in place, and leaves all other
rows as they are. -/
theorem clearColumn (h : IsSortedUpTo a σ d c π b) (ha : a.IsScaledPermutation σ d) (hc : c < n)
    (hplace : σ (π ⟨c, hc⟩) = ⟨c, hc⟩) : IsSortedUpTo a σ d (c + 1) π (b.clearColumn c) := by
  have hpivot : b c c = d (π ⟨c, hc⟩) := by
    have happly := h.apply ⟨c, hc⟩ c (by omega)
    have hleft := a.besideIdentity_left (π ⟨c, hc⟩) ⟨c, hc⟩
    have hself := ha.apply_self (π ⟨c, hc⟩)
    rw [hplace] at hself
    rw [if_neg (lt_irrefl c)] at happly
    exact happly.trans (hleft.trans hself)
  refine ⟨fun r hr => ?_, fun r j hj => ?_⟩
  · rcases Nat.lt_succ_iff_lt_or_eq.1 hr with hlt | heq
    · exact h.placed r hlt
    · obtain rfl : r = ⟨c, hc⟩ := Fin.ext heq
      exact hplace
  · rw [clearColumn_entry c r.isLt hj]
    by_cases hrc : (r : Nat) = c
    · obtain rfl : r = ⟨c, hc⟩ := Fin.ext hrc
      rw [if_pos rfl, if_pos (Nat.lt_succ_self c), hpivot, h.apply ⟨c, hc⟩ j hj,
        if_neg (lt_irrefl c)]
    · have hclear : (b r c == 0) = true := by
        refine h.apply_beq_zero ha (j := ⟨c, hc⟩) fun heq => hrc ?_
        rw [← hplace] at heq
        exact congrArg Fin.val (π.injective (σ.injective heq)).symm
      rw [if_neg hrc, if_pos hclear, h.apply r j hj]
      exact if_congr (by omega) rfl rfl

end IsSortedUpTo

/-- Every column finds its pivot, and after the last one all rows are in place. -/
theorem clearColumns_of_isSortedUpTo {a : DenseMatrix n n Float} {σ : Equiv.Perm (Fin n)}
    {d : Fin n → Float} (ha : a.IsScaledPermutation σ d) (pivoting : Pivoting) (scale tiny : Float)
    {count c : Nat} (hc : c + count = n) {π : Equiv.Perm (Fin n)} {b : DenseMatrix n (2 * n) Float}
    (h : IsSortedUpTo a σ d c π b) :
    ∃ b' π', (clearColumns pivoting scale tiny (List.range' c count) b).value = .ok b' ∧
      IsSortedUpTo a σ d n π' b' := by
  induction count generalizing c π b with
  | zero =>
      obtain rfl : c = n := hc
      exact ⟨b, π, rfl, h⟩
  | succ count ih =>
      have hcn : c < n := by omega
      obtain ⟨r, hr⟩ : ∃ r, σ (π r) = ⟨c, hcn⟩ := (π.trans σ).surjective _
      have hcr : c ≤ r := h.le_of_placed (congrArg Fin.val hr)
      have hvalue : b r c = d (π r) := by
        rw [h.apply r c (by omega), if_neg (Nat.not_lt.2 hcr)]
        exact (a.besideIdentity_left (π r) ⟨c, hcn⟩).trans (hr ▸ ha.apply_self (π r))
      have hpivot : b.pivotRow? pivoting c = some r := by
        refine pivotRow?_of_single hcr r.isLt (hvalue ▸ ha.isFinite _) (hvalue ▸ ha.ne_zero _)
          (fun s _ hs hsr => ?_) pivoting
        refine h.apply_beq_zero ha (r := ⟨s, hs⟩) (j := ⟨c, hcn⟩) fun heq => hsr ?_
        rw [← hr] at heq
        exact congrArg Fin.val (π.injective (σ.injective heq)).symm
      rw [List.range'_succ, clearColumns, hpivot]
      refine ih (by omega) ((h.swapRows hcn hcr).clearColumn ha hcn ?_)
      rw [Equiv.Perm.mul_apply, Equiv.swap_apply_left]
      exact hr

/-- The inverse has the quotients over the numbers, in the transposed places. -/
theorem inverse_of_isScaledPermutation {a : DenseMatrix n n Float} {σ : Equiv.Perm (Fin n)}
    {d : Fin n → Float} (ha : a.IsScaledPermutation σ d) (pivoting : Pivoting) :
    ∃ b, (a.inverse pivoting).value = .ok b ∧ ∀ i j : Fin n,
      b (σ i) j = (if j = i then 1 else 0) / d i := by
  obtain ⟨b, π, hb, h⟩ := clearColumns_of_isSortedUpTo ha pivoting
    (Arith.largestOver a.entries Entry.size)
    (Arith.epsilon * Arith.largestOver a.entries Entry.size * (n : Float)) (Nat.zero_add n)
    (.start a σ d)
  refine ⟨b.rightHalf, ?_, fun i j => ?_⟩
  · have hvalue : (a.inverse pivoting).value = (clearColumns pivoting
        (Arith.largestOver a.entries Entry.size)
        (Arith.epsilon * Arith.largestOver a.entries Entry.size * (n : Float)) (List.range n)
        a.besideIdentity).value.map rightHalf := rfl
    rw [hvalue, List.range_eq_range', hb]
    rfl
  · have hrow : π (σ i) = i := σ.injective (h.placed (σ i) (σ i).isLt)
    rw [rightHalf, apply_of_lt _ (σ i).isLt j.isLt, h.apply (σ i) (n + j) (by omega),
      if_pos (σ i).isLt, hrow, besideIdentity_right]

end DenseMatrix

/-! ## Arrays -/

namespace NumArray

open Binary

variable {n : Nat}

/-- A real matrix with `d i` in row `i` and column `σ i`, and zeros of either
sign elsewhere. -/
structure IsScaledPermutation (a : NumArray) (σ : Equiv.Perm (Fin n)) (d : Fin n → Float) :
    Prop where
  shape : a.shape = .matrix n n
  isReal : a.isComplex = false
  isFinite : ∀ i, (d i).isFinite = true
  ne_zero : ∀ i, (d i == 0) = false
  entry_self : ∀ i : Fin n, (a.entry i (σ i)).re = d i
  entry_of_ne : ∀ i j : Fin n, j ≠ σ i → ((a.entry i j).re == 0) = true

/-- The real parts of a matrix. -/
def realParts (a : NumArray) (n : Nat) : DenseMatrix n n Float := .ofFn fun i j => (a.entry i j).re

/-- A real array is inverted in real arithmetic. -/
theorem value_inverseWith_of_real {a : NumArray} (hshape : a.shape = .matrix n n)
    (hreal : a.isComplex = false) (pivoting : Pivoting) :
    (a.inverseWith pivoting).value = ((a.realParts n).inverse pivoting).value.map fun b =>
      (DenseMatrix.ofFn fun i j => .ofReal (b i j) : DenseMatrix n n (Complex Float)).toNumArray
        a.dtype.floatCounterpart := by
  rw [inverseWith, squareOrder_eq_ok_iff.2 hshape, hreal]
  rfl

/-- The inverse of a scaled permutation is found with either choice of pivots.
It has the quotient of one and each number, rounded once and then to the type of
the result, in the transposed place, and is zero elsewhere. -/
theorem inverseWith_of_isScaledPermutation {a : NumArray} {σ : Equiv.Perm (Fin n)}
    {d : Fin n → Float} (ha : a.IsScaledPermutation σ d) (pivoting : Pivoting) :
    ∃ b, (a.inverseWith pivoting).value = .ok b ∧ b.shape = .matrix n n ∧
      b.dtype = a.dtype.floatCounterpart ∧ ∀ i : Fin n,
        Rounds (1 / toReal (d i)) (1 / d i) ∧
        b.entry (σ i) i = .ofReal (b.dtype.quantize (1 / d i)) ∧
        ∀ j : Fin n, j ≠ i → (b.entry (σ i) j).Matches 0 := by
  have hparts : (a.realParts n).IsScaledPermutation σ d := by
    refine ⟨ha.isFinite, ha.ne_zero, fun i => ?_, fun i j hj => ?_⟩
    · rw [realParts, DenseMatrix.apply_of_lt _ i.isLt (σ i).isLt]
      exact ha.entry_self i
    · rw [realParts, DenseMatrix.apply_of_lt _ i.isLt j.isLt]
      exact ha.entry_of_ne i j hj
  obtain ⟨b, hb, hentry⟩ := DenseMatrix.inverse_of_isScaledPermutation hparts pivoting
  have hvalue := value_inverseWith_of_real ha.shape ha.isReal pivoting
  rw [hb] at hvalue
  refine ⟨_, hvalue, rfl, rfl, fun i => ?_⟩
  · have hreal : a.dtype.floatCounterpart.isComplex = false :=
      a.dtype.isComplex_floatCounterpart.trans ha.isReal
    -- an entry of the result is real, and quantized once
    have helement (j : Fin n) :
        ((DenseMatrix.ofFn fun i j => .ofReal (b i j) : DenseMatrix n n (Complex Float)).toNumArray
            a.dtype.floatCounterpart).entry (σ i) j
          = .ofReal (a.dtype.floatCounterpart.quantize ((if j = i then 1 else 0) / d i)) := by
      have := entry_mk_tabulate (s := .matrix n n)
        (DenseMatrix.ofFn fun i j => .ofReal (b i j) : DenseMatrix n n (Complex Float))
        a.dtype.floatCounterpart (σ i).isLt j.isLt
      refine this.trans ?_
      rw [DenseMatrix.apply_of_lt _ (σ i).isLt j.isLt, hentry]
      exact Complex.ext rfl (DType.im_element_of_real hreal _)
    have h0 := toReal_ne_zero_of_beq (ha.isFinite i) (ha.ne_zero i)
    refine ⟨?_, ?_, fun j hj => ?_⟩
    · have := rounds_div isFinite_one (ha.isFinite i) h0
      rwa [toReal_one] at this
    · rw [helement, if_pos rfl]
      rfl
    · rw [helement, if_neg hj]
      refine ⟨?_, .refl 0⟩
      have := (matches_zero_div (ha.isFinite i) h0).quantize a.dtype.floatCounterpart
      rwa [DType.quantize_zero] at this

/-- Three rows in a circle: with zeros of both signs, and with a number whose
inverse is out of range. -/
def scaledCycle : NumArray :=
  ⟨.matrix 3 3, ⟨.f64, #[0, 3, -0, -0, 0, -4, .ofBits 1, -0, -0], none⟩⟩

theorem inverseWith_of_isScaledPermutation_scaledCycle :
    scaledCycle.IsScaledPermutation (finRotate 3) ![3, -4, .ofBits 1] ∧
      ∃ b, (scaledCycle.inverseWith .largest).value = .ok b ∧ b.shape = .matrix 3 3 ∧
        b.dtype = scaledCycle.dtype.floatCounterpart ∧ ∀ i : Fin 3,
          Rounds (1 / toReal (![3, -4, .ofBits 1] i)) (1 / ![3, -4, .ofBits 1] i) ∧
          b.entry (finRotate 3 i) i = .ofReal (b.dtype.quantize (1 / ![3, -4, .ofBits 1] i)) ∧
          ∀ j : Fin 3, j ≠ i → (b.entry (finRotate 3 i) j).Matches 0 := by
  have h : scaledCycle.IsScaledPermutation (finRotate 3) ![3, -4, .ofBits 1] :=
    ⟨rfl, rfl, by decide +kernel, by decide +kernel, by decide +kernel, by decide +kernel⟩
  exact ⟨h, inverseWith_of_isScaledPermutation h .largest⟩

end NumArray

end DenseNumeric
