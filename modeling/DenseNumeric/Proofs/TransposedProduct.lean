import DenseNumeric.Proofs.Elements
import DenseNumeric.Proofs.OperandSymmetry

/-!
# The transpose of a product

The transpose of a product is the product of the transposes in reverse order,
and not only up to rounding: the two add up the same terms in the same order,
and each term is a product with its factors exchanged. A sum and a product of
two doubles are one rounding of the exact result, so they do not depend on the
order of the operands, whether these are numbers, infinities or undefined.
Both sides have the common type of the same two types, and both are computed
in complex arithmetic or neither is.
-/

namespace DenseNumeric

open Binary

theorem Complex.float_mul_comm (z w : Complex Float) : z * w = w * z := by
  refine Complex.ext ?_ ?_
  · rw [re_mul, re_mul, Binary.float_mul_comm z.re, Binary.float_mul_comm z.im]
  · rw [im_mul, im_mul, Binary.float_mul_comm z.re, Binary.float_mul_comm z.im, float_add_comm]

/-! ## Arrays -/

namespace NumArray

variable {a b : NumArray} {m k n : Nat} (ha : a.shape = .matrix m k) (hb : b.shape = .matrix k n)
include ha hb

/-- An entry on either side is the same sum. -/
theorem productEntry_transpose {i j : Nat} (hi : i < n) (hj : j < m) :
    b.transpose.productEntry a.transpose k i j = a.productEntry b k j i := by
  have hleft {p : Nat} (hp : p < k) : b.transpose.entry i p = b.entry p i :=
    entry_transpose hb hi hp
  have hright {p : Nat} (hp : p < k) : a.transpose.entry p j = a.entry j p :=
    entry_transpose ha hp hj
  rw [productEntry, productEntry, isComplex, isComplex, dtype_transpose, dtype_transpose,
    Bool.or_comm]
  refine if_congr Iff.rfl (dot_congr fun p hp => ?_) (congrArg Complex.ofReal
    (dot_congr fun p hp => ?_))
  · rw [hleft hp, hright hp, Complex.float_mul_comm]
  · rw [hleft hp, hright hp, float_mul_comm]

/-- Transposition reverses products. -/
theorem transpose_of_matmul : ∃ c, a.matmul b = .ok c ∧ c.shape = .matrix m n ∧
    c.dtype = a.dtype.promote b.dtype ∧ b.transpose.matmul a.transpose = .ok c.transpose := by
  refine ⟨_, matmul_eq_ok ha hb, rfl, rfl, ?_⟩
  rw [matmul_eq_ok (shape_transpose hb) (shape_transpose ha), transpose_mk_tabulate,
    dtype_transpose, dtype_transpose, DType.promote_comm]
  refine congrArg (fun values => Except.ok (NumArray.mk _ (.ofComplex values _))) ?_
  exact Shape.tabulate_congr fun i hi j hj => productEntry_transpose ha hb hi hj

omit ha hb

def integerRow : NumArray := ⟨.matrix 1 2, .ofElements #[(3 : Int32), -2]⟩

/-- Columns of single-precision complex numbers, one of them undefined. -/
def undefinedColumns : NumArray :=
  ⟨.matrix 2 3, .ofComplex #[⟨1, -1⟩, ⟨0 / 0, 2⟩, 0, ⟨0, 1⟩, ⟨-0, 5⟩, ⟨1 / 0, 0⟩] .c64⟩

theorem transpose_of_matmul_integerRow :
    (integerRow.shape = .matrix 1 2 ∧ undefinedColumns.shape = .matrix 2 3) ∧
    ∃ c, integerRow.matmul undefinedColumns = .ok c ∧ c.shape = .matrix 1 3 ∧ c.dtype = .c128 ∧
      undefinedColumns.transpose.matmul integerRow.transpose = .ok c.transpose :=
  ⟨⟨rfl, rfl⟩, transpose_of_matmul (a := integerRow) (b := undefinedColumns) rfl rfl⟩

end NumArray

end DenseNumeric
