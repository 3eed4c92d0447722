import DenseNumeric.Proofs.Elements
import DenseNumeric.Proofs.Truncation

/-!
# Arithmetic on arrays of integers

An array of 32-bit integers holds them as doubles, and computes with doubles:
each element of a result is rounded, and then cut down to an integer and moved
into range. That comes to arithmetic on integers, moved into range once
(`BinaryOp.onIntegers`). The rounding of a single operation does not show. The
sums that a product is made of are not moved into range before they are
finished, and are exact as long as their terms are together no larger than
`2 ^ 53`; a sum moved into range at every term would come back from the end of
the range, and not from where it was.
-/

namespace DenseNumeric

open Binary

/-! ## Single operations -/

/-- The operation on integers, with a result in 32 bits. A quotient is cut
down toward zero, and by zero it is the end that has the sign of the dividend. -/
def BinaryOp.onIntegers : BinaryOp → ℤ → ℤ → ℤ
  | add, m, n => saturate (m + n)
  | sub, m, n => saturate (m - n)
  | mul, m, n => saturate (m * n)
  | div, m, n =>
    if n = 0 then (if 0 < m then 2 ^ 31 - 1 else if m < 0 then -2 ^ 31 else 0)
    else saturate (m.tdiv n)

theorem toInt32_apply (op : BinaryOp) {m n : ℤ} (hm : |m| ≤ 2 ^ 31) (hn : |n| ≤ 2 ^ 31) :
    toInt32 (op.apply (ofInt m) (ofInt n)) = op.onIntegers m n := by
  have hx : IsInteger (ofInt m) m := .ofInt (hm.trans (by decide))
  have hy : IsInteger (ofInt n) n := .ofInt (hn.trans (by decide))
  cases op with
  | add =>
      refine (hx.add hy ?_).toInt32_eq
      calc |m + n| ≤ |m| + |n| := abs_add_le m n
        _ ≤ 2 ^ 62 := by omega
  | sub =>
      refine (hx.sub hy ?_).toInt32_eq
      calc |m - n| ≤ |m| + |n| := abs_sub m n
        _ ≤ 2 ^ 62 := by omega
  | mul =>
      refine (hx.mul hy ?_).toInt32_eq
      calc |m * n| = |m| * |n| := abs_mul m n
        _ ≤ 2 ^ 31 * 2 ^ 31 := mul_le_mul hm hn (abs_nonneg n) (by decide)
        _ = 2 ^ 62 := by decide
  | div =>
      show toInt32 (ofInt m / ofInt n) = if n = 0 then _ else _
      split
      · next h0 =>
          rw [h0]
          exact toInt32_div_zero hm
      · next h0 => exact (hx.div hy h0 (hm.trans (by decide))).toInt32_div h0 hm hn

/-! ## Arrays -/

namespace NumArray

/-- The integer in a row and a column. -/
def integer (a : NumArray) (row col : Nat) : ℤ := toInt32 (a.entry row col).re

/-- A valid array of 32-bit integers, `f i j` in row `i` and column `j`. -/
structure IsIntegers (a : NumArray) (s : Shape) (f : Nat → Nat → ℤ) : Prop where
  isValid : a.IsValid
  shape : a.shape = s
  dtype : a.dtype = .i32
  integer : ∀ i < s.rows, ∀ j < s.cols, a.integer i j = f i j

theorem IsIntegers.congr {a : NumArray} {s : Shape} {f g : Nat → Nat → ℤ} (h : a.IsIntegers s f)
    (hfg : ∀ i < s.rows, ∀ j < s.cols, f i j = g i j) : a.IsIntegers s g :=
  ⟨h.isValid, h.shape, h.dtype, fun i hi j hj => (h.integer i hi j hj).trans (hfg i hi j hj)⟩

theorem integer_of_entry {a : NumArray} {d : DType} {z : Complex Float} {i j : Nat}
    (h : a.entry i j = d.element z) (hd : d = .i32) : a.integer i j = toInt32 z.re := by
  obtain ⟨hmin, hmax⟩ := toInt32_mem z.re
  rw [integer, h, hd]
  exact toInt32_ofInt hmin hmax

section Arithmetic

variable {a b : NumArray} (ha : a.IsValid) (hd : a.dtype = .i32)

theorem abs_integer_le (a : NumArray) (i j : Nat) : |a.integer i j| ≤ 2 ^ 31 := by
  obtain ⟨hmin, hmax⟩ := toInt32_mem (a.entry i j).re
  exact abs_le.2 ⟨hmin, hmax.le⟩

include hd

theorem isComplex_eq_false : a.isComplex = false := by
  rw [isComplex, hd]
  rfl

include ha

/-- Elements are the doubles that stand for the integers. -/
theorem re_entry_eq_ofInt (i j : Nat) : (a.entry i j).re = ofInt (a.integer i j) := by
  have hquantized := ha.storage.re.getD (a.shape.offset i j)
  rw [show a.storage.dtype = .i32 from hd] at hquantized
  exact hquantized.symm

theorem isInteger_entry (i j : Nat) : IsInteger (a.entry i j).re (a.integer i j) := by
  rw [re_entry_eq_ofInt ha hd]
  exact .ofInt ((a.abs_integer_le i j).trans (by decide))

theorem combine_isIntegers (hb : b.IsValid) (hd' : b.dtype = .i32) (hab : a.shape = b.shape)
    (op : BinaryOp) : ∃ c, combine op a b = .ok c ∧
      c.IsIntegers a.shape fun i j => op.onIntegers (a.integer i j) (b.integer i j) := by
  obtain ⟨c, hc, hshape, hdtype, hentry⟩ := exists_combine ha hb hab op
  refine ⟨c, hc, combine_isValid ha hb hc, hshape, hdtype.trans hd, fun i hi j hj => ?_⟩
  rw [integer_of_entry (hentry i hi j hj) hd, isComplex_eq_false hd, isComplex_eq_false hd']
  show toInt32 (op.apply (a.entry i j).re (b.entry i j).re) = _
  rw [re_entry_eq_ofInt ha hd, re_entry_eq_ofInt hb hd']
  exact toInt32_apply op (a.abs_integer_le i j) (b.abs_integer_le i j)

theorem combineScalar_isIntegers (op : BinaryOp) (n : Int32) :
    (combineScalar op a (.ofElement n)).IsIntegers a.shape fun i j =>
      op.onIntegers (a.integer i j) n.toInt := by
  refine ⟨mapElements_isValid ha _, rfl, hd, fun i hi j hj => ?_⟩
  rw [integer_of_entry (entry_combineScalar ha op _ hi hj) hd, isComplex_eq_false hd]
  show toInt32 (op.apply (a.entry i j).re (ofInt n.toInt)) = _
  rw [re_entry_eq_ofInt ha hd]
  exact toInt32_apply op (a.abs_integer_le i j) (abs_le.2 ⟨n.le_toInt, n.toInt_lt.le⟩)

/-- Elementwise arithmetic on integers is exact, up to one move into range. -/
theorem arithmetic_of_integers (op : BinaryOp) :
    (∀ b : NumArray, b.IsValid → b.dtype = .i32 → b.shape = a.shape →
      ∃ c, combine op a b = .ok c ∧
        c.IsIntegers a.shape fun i j => op.onIntegers (a.integer i j) (b.integer i j)) ∧
    ∀ n : Int32, (combineScalar op a (.ofElement n)).IsIntegers a.shape fun i j =>
      op.onIntegers (a.integer i j) n.toInt :=
  ⟨fun _ hb hd' hshape => combine_isIntegers ha hd hb hd' hshape.symm op,
    combineScalar_isIntegers ha hd op⟩

end Arithmetic

/-- The ends of the range, and small integers. -/
def extremes : NumArray :=
  ⟨.vector 6, .ofElements #[(2147483647 : Int32), -2147483648, -2147483648, 7, -7, 0]⟩

def divisors : NumArray := ⟨.vector 6, .ofElements #[(-1 : Int32), -1, 0, -2, 0, 0]⟩

theorem arithmetic_of_integers_extremes :
    (extremes.IsValid ∧ extremes.dtype = .i32) ∧
      (∃ c, combine .div extremes divisors = .ok c ∧ c.IsIntegers (.vector 6) fun _ j =>
        [-2147483647, 2147483647, -2147483648, -3, -2147483648, 0].getD j 0) ∧
      (combineScalar .mul extremes (.ofElement (2 : Int32))).IsIntegers (.vector 6) fun _ j =>
        [2147483647, -2147483648, -2147483648, 14, -14, 0].getD j 0 := by
  have hvalid : extremes.IsValid := isValid_mk_ofElements (by decide) rfl
  have hvalid' : divisors.IsValid := isValid_mk_ofElements (by decide) rfl
  refine ⟨⟨hvalid, rfl⟩, ?_, ?_⟩
  · obtain ⟨c, hc, hintegers⟩ :=
      (arithmetic_of_integers hvalid rfl .div).1 divisors hvalid' rfl rfl
    exact ⟨c, hc, hintegers.congr (by decide +kernel)⟩
  · exact ((arithmetic_of_integers hvalid rfl .mul).2 2).congr (by decide +kernel)

end NumArray

/-! ## Products -/

section Sums

variable {x y : Nat → Float} {f g : Nat → ℤ}

/-- One more term of a sum. -/
theorem Binary.IsInteger.add_mul {s x y : Float} {k m n : ℤ} (hs : IsInteger s k)
    (hx : IsInteger x m) (hy : IsInteger y n) (hterm : |m * n| ≤ 2 ^ 53)
    (hsum : |k + m * n| ≤ 2 ^ 53) : IsInteger (s + x * y) (k + m * n) := by
  have hmul := (hx.mul hy (hterm.trans (by decide))).isInteger hterm
  exact (hs.add hmul (hsum.trans (by decide))).isInteger hsum

/-- No sum along the way is larger than all terms together. -/
theorem isInteger_dot (hx : ∀ p, IsInteger (x p) (f p)) (hy : ∀ p, IsInteger (y p) (g p)) {k : Nat}
    (h : ∑ p ∈ Finset.range k, |f p * g p| ≤ 2 ^ 53) :
    IsInteger (dot k x y) (∑ p ∈ Finset.range k, f p * g p) := by
  induction k with
  | zero => exact .zero
  | succ k ih =>
      have hsum : |∑ p ∈ Finset.range (k + 1), f p * g p| ≤ 2 ^ 53 :=
        (Finset.abs_sum_le_sum_abs _ _).trans h
      rw [Finset.sum_range_succ] at h hsum ⊢
      have hhead : 0 ≤ ∑ p ∈ Finset.range k, |f p * g p| :=
        Finset.sum_nonneg fun p _ => abs_nonneg _
      have hterm : 0 ≤ |f k * g k| := abs_nonneg _
      rw [dot_succ]
      exact (ih (by omega)).add_mul (hx k) (hy k) (by omega) hsum

end Sums

namespace NumArray

/-- The entries of a product are exact sums, moved into range once, as long as
the terms of each are together no larger than `2 ^ 53`. -/
theorem matmul_of_integers {a b : NumArray} (ha : a.IsValid) (hd : a.dtype = .i32)
    (hb : b.IsValid) (hd' : b.dtype = .i32) {m k n : Nat} (hs : a.shape = .matrix m k)
    (hs' : b.shape = .matrix k n) :
    ∃ c, a.matmul b = .ok c ∧ c.IsValid ∧ c.shape = .matrix m n ∧ c.dtype = .i32 ∧
      ∀ i < m, ∀ j < n, ∑ p ∈ Finset.range k, |a.integer i p * b.integer p j| ≤ 2 ^ 53 →
        c.integer i j = saturate (∑ p ∈ Finset.range k, a.integer i p * b.integer p j) := by
  have hproduct := matmul_eq_ok hs hs'
  have hdtype : a.dtype.promote b.dtype = .i32 := by rw [hd, hd', DType.promote_self]
  refine ⟨_, hproduct, matmul_isValid ha hb hproduct, rfl, hdtype, fun i hi j hj hsum => ?_⟩
  rw [integer_of_entry (entry_mk_tabulate (s := .matrix m n) _ _ hi hj) hdtype, productEntry,
    isComplex_eq_false hd, isComplex_eq_false hd']
  exact (isInteger_dot (isInteger_entry ha hd i) (isInteger_entry hb hd' · j) hsum).toInt32_eq

def largestRow : NumArray :=
  ⟨.matrix 1 3, .ofElements #[(2147483647 : Int32), 2147483647, 2147483647]⟩

def signedColumns : NumArray := ⟨.matrix 3 2, .ofElements #[(1 : Int32), -1, 1, -1, -1, 0]⟩

/-- One sum leaves the range and comes back, the other one stays outside. -/
theorem matmul_of_integers_largestRow :
    (largestRow.IsValid ∧ largestRow.dtype = .i32 ∧ signedColumns.IsValid ∧
      signedColumns.dtype = .i32) ∧
    ∃ c, largestRow.matmul signedColumns = .ok c ∧ c.IsValid ∧ c.shape = .matrix 1 2 ∧
      c.dtype = .i32 ∧ c.integer 0 0 = 2147483647 ∧ c.integer 0 1 = -2147483648 := by
  have hvalid : largestRow.IsValid := isValid_mk_ofElements (by decide) rfl
  have hvalid' : signedColumns.IsValid := isValid_mk_ofElements (by decide) rfl
  obtain ⟨c, hc, hc', hshape, hdtype, hentries⟩ :=
    matmul_of_integers hvalid rfl hvalid' rfl (m := 1) (k := 3) (n := 2) rfl rfl
  refine ⟨⟨hvalid, rfl, hvalid', rfl⟩, c, hc, hc', hshape, hdtype, ?_, ?_⟩
  · exact (hentries 0 (by decide) 0 (by decide) (by decide +kernel)).trans (by decide +kernel)
  · exact (hentries 0 (by decide) 1 (by decide) (by decide +kernel)).trans (by decide +kernel)

end NumArray

end DenseNumeric
