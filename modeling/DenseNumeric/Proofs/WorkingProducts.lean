import DenseNumeric.Proofs.CheckedEigensystem
import DenseNumeric.Proofs.FactorZeros
import DenseNumeric.Proofs.FloatLengths
import DenseNumeric.Proofs.ZeroSigns

/-!
# Products of working matrices

There are two matrix products. The one of arrays adds up an entry at a time. The
one of working matrices goes through the left factor, and spreads each of its
entries over a row of the result, in place; a zero is passed over. Either way an
entry of the result gets its terms in the order of the inner extent. A term that
is passed over is a zero if the right factor is finite, and the sum it is missing
from differs in the sign of a zero at most, even if it has overflowed by then.
-/

namespace DenseNumeric

theorem Complex.Matches.of_isZero {z : Complex Float} (hz : z.isZero = true) : z.Matches 0 := by
  obtain ⟨hre, him⟩ := Bool.and_eq_true_iff.1 hz
  exact ⟨.inl hre, .inl him⟩

namespace DenseMatrix

variable {n : Nat}

/-- The terms with a zero on the left may be passed over or taken in. -/
theorem dot_matches_mul {x y : DenseMatrix n n (Complex Float)} (hy : y.IsFinite) {i j : Nat}
    (hi : i < n) (hj : j < n) : (dot n (x i) (y · j)).Matches (x.mul y i j) := by
  rw [mul, apply_of_lt _ hi hj]
  refine List.foldl_rel (.refl 0) fun k hk s s' hs => ?_
  split
  · next hzero =>
      obtain ⟨hre, him⟩ := Complex.isFinite_iff.1 (hy k j (List.mem_range.1 hk) hj)
      -- the sum that takes the term in stays where it was
      have hterm : (x i k * y k j).Matches 0 := (Complex.Matches.of_isZero hzero).zero_mul hre him
      exact (Complex.Matches.add_zero s hterm).trans hs
  · exact hs.add (.refl _)

/-- The two products match, whatever the left factor is. -/
theorem working_product_matches (x : DenseMatrix n n (Complex Float))
    {y : DenseMatrix n n (Complex Float)} (hy : y.IsFinite) :
    Checked.matmul x y = .ok (x.mul y) ∧
      ∃ c, (x.toNumArray .c128).matmul (y.toNumArray .c128) = .ok c ∧
        c.Matches ((x.mul y).toNumArray .c128) := by
  have hshape (z : DenseMatrix n n (Complex Float)) : (z.toNumArray .c128).shape = .matrix n n :=
    rfl
  have hentry (z : DenseMatrix n n (Complex Float)) {i j : Nat} (hi : i < n) (hj : j < n) :
      (z.toNumArray .c128).entry i j = z i j :=
    (z.entry_toNumArray rfl hi hj).trans rfl
  obtain ⟨c, hc, hcshape, hcdtype, hcentry⟩ := NumArray.exists_matmul (hshape x) (hshape y)
  refine ⟨Checked.matmul_eq x y, c, hc, hcshape, hcdtype, fun i hi j hj => ?_⟩
  rw [NumArray.nrows, hcshape] at hi
  rw [NumArray.ncols, hcshape] at hj
  have hproduct : (x.toNumArray .c128).productEntry (y.toNumArray .c128) n i j
      = dot n (x i) (y · j) := by
    refine (if_pos rfl).trans (dot_congr fun p hp => ?_)
    rw [hentry x hi hp, hentry y hp hj]
  have helement : c.entry i j = dot n (x i) (y · j) := by
    rw [hcentry i hi j hj, hproduct, hcdtype]
    rfl
  rw [helement, hentry (x.mul y) hi hj]
  exact dot_matches_mul hy hi hj

/-- Rows whose sums overflow to both sides, and a row with a zero. -/
def overflowingRows : DenseMatrix 2 2 (Complex Float) :=
  ⟨#v[#v[⟨.ofBits 0x7e70000000000000, 1⟩, ⟨-.ofBits 0x7e70000000000000, 0⟩], #v[0, ⟨0, -3⟩]]⟩

def largeColumns : DenseMatrix 2 2 (Complex Float) :=
  ⟨#v[#v[⟨.ofBits 0x7e70000000000000, 0⟩, ⟨-1, 2⟩], #v[⟨.ofBits 0x7e70000000000000, 0⟩, ⟨0, -0⟩]]⟩

theorem working_product_matches_overflowingRows :
    largeColumns.IsFinite ∧
      Checked.matmul overflowingRows largeColumns = .ok (overflowingRows.mul largeColumns) ∧
      (overflowingRows.mul largeColumns 0 0).re.isNaN = true ∧
      ∃ c, (overflowingRows.toNumArray .c128).matmul (largeColumns.toNumArray .c128) = .ok c ∧
        c.Matches ((overflowingRows.mul largeColumns).toNumArray .c128) := by
  have hfin : ∀ i j : Fin 2, (largeColumns i j).isFinite = true := by decide +kernel
  have hfinite : largeColumns.IsFinite := fun i j hi hj => hfin ⟨i, hi⟩ ⟨j, hj⟩
  obtain ⟨hloop, hmatches⟩ := working_product_matches overflowingRows hfinite
  exact ⟨hfinite, hloop, by decide +kernel, hmatches⟩

end DenseMatrix

end DenseNumeric
