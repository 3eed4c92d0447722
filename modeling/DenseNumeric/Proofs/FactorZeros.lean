import Mathlib
import DenseNumeric.Proofs.Elements
import DenseNumeric.Proofs.FloatLengths
import DenseNumeric.Proofs.ZeroPattern

/-!
# Zeros of the factors

Where the factors of an array have zeros. The Hessenberg form has them below
its first subdiagonal. The Schur form has them below its diagonal if there was
a run, as a run ends when every subdiagonal entry has been deflated.

No run is made if the norm to compare with is zero, and that does not mean
that there is nothing to do: the length of the matrix is divided by its order
first, and what is left of a few smallest numbers may round to zero. The
matrix is then returned as it is, with subdiagonal entries of at most
`n * 2 ^ (-1075)`.
-/

namespace DenseNumeric

open Binary

variable {n : Nat}

/-! ## Triangular forms -/

theorem Similar.triangularize_isUpperTriangular {R : Type} [Arith R] {p t : Similar n R}
    {limit : Nat} (hp : p.matrix.IsHessenberg) (h : (p.triangularize limit).value = .ok t) :
    t.matrix.IsUpperTriangular ∨ (meanNorm p.matrix == 0) = true ∧ t = p := by
  rcases value_triangularize_eq_ok h with ⟨hquiet, rfl⟩ | ⟨hn, -, hhigh, rfl⟩
  · rcases hquiet with hn | hnorm
    · left
      intro i k hi hk
      omega
    · exact .inr ⟨hnorm, rfl⟩
  · left
    have hstart := QrState.Decoupled.start hp (show 1 ≤ n by omega)
    exact (hstart.run _ _).isUpperTriangular hhigh

/-! ## A norm of zero -/

namespace DenseMatrix

/-- Where the norm is zero, every entry that it reads is next to nothing. -/
theorem isWithin_of_meanNorm_beq_zero {a : DenseMatrix n n (Complex Float)} (ha : a.IsHessenberg)
    (hsize : n < 2 ^ 53) (h : (meanNorm a == 0) = true) {i j : Nat} (hi : i < n) (hj : j < n) :
    (a i j).IsWithin (n * 2 ^ (-1075 : ℤ)) := by
  have hpos : (0 : ℝ) < n := by exact_mod_cast Nat.zero_lt_of_lt hi
  rcases Nat.lt_or_ge (j + 1) i with hlow | hband
  · rw [ha i j hi hlow]
    exact Complex.IsWithin.zero (by positivity)
  · set band := (List.range n).flatMap fun j => (List.range (min (j + 2) n)).map (a · j)
    have hnorm : meanNorm a = lengthOf band / (n : Float) := rfl
    rw [hnorm] at h
    have horder := roundsTo_natCast hsize
    have hvalue := toReal_natCast hsize
    have hquotient := isFinite_of_beq_zero h
    have hlength := isFinite_of_div horder.isFinite hquotient
    have hround := (rounds_div hlength horder.isFinite (by rw [hvalue]; exact hpos.ne')).of_isFinite
      hquotient
    have hsmall := hround.abs_le_of_eq_zero ((float_beq_iff hquotient isFinite_zero).1 h)
    rw [hvalue, abs_div, abs_of_pos hpos, div_le_iff₀' hpos] at hsmall
    have hmem : a i j ∈ band :=
      List.mem_flatMap.2 ⟨j, List.mem_range.2 hj,
        List.mem_map.2 ⟨i, List.mem_range.2 (by omega), rfl⟩⟩
    exact (isWithin_lengthOf hlength hmem).mono hsmall

end DenseMatrix

/-! ## Arrays -/

/-- An element of an array that was made of a working matrix. -/
theorem DenseMatrix.entry_toNumArray (m : DenseMatrix n n (Complex Float)) {dtype : DType}
    (hdtype : dtype.isComplex = true) {i j : Nat} (hi : i < n) (hj : j < n) :
    (m.toNumArray dtype).entry i j = ⟨dtype.quantize (m i j).re, dtype.quantize (m i j).im⟩ :=
  (NumArray.entry_mk_tabulate (s := .matrix n n) m dtype hi hj).trans
    (Complex.ext rfl (if_pos hdtype))

theorem DType.isComplex_complexCounterpart (d : DType) : d.complexCounterpart.isComplex = true := by
  cases d <;> rfl

namespace NumArray

/-- The elements below the diagonal, and further down than `k` places, are
zeros. -/
def HasZerosBelow (a : NumArray) (k : Nat) : Prop :=
  ∀ row col, row < a.nrows → col + k < row → a.entry row col = 0

theorem entry_eq_zero {m : DenseMatrix n n (Complex Float)} (dtype : DType) {i j : Nat}
    (hi : i < n) (hj : j < n) (h : m i j = 0) :
    (m.toNumArray dtype.complexCounterpart).entry i j = 0 := by
  rw [m.entry_toNumArray dtype.isComplex_complexCounterpart hi hj, h, Complex.re_zero,
    Complex.im_zero, DType.quantize_zero]
  rfl

/-- The Hessenberg form has its zeros. So has the Schur form, or else the norm
is zero, it is the Hessenberg form, and the whole of that is next to nothing. -/
theorem factors_haveZeros {a : NumArray} (hn : squareOrder a.dims = .ok n) :
    (∃ f, a.hessenberg = .ok f ∧ f.form.HasZerosBelow 1) ∧
      ∀ f, a.schur.value = .ok f →
        f.form.HasZerosBelow 0 ∨
          (meanNorm ((a.toMatrix n).hessenberg true).matrix == 0) = true ∧
            a.hessenberg = .ok f ∧ (n < 2 ^ 53 → ∀ i < n, ∀ j < n,
              (((a.toMatrix n).hessenberg true).matrix i j).IsWithin (n * 2 ^ (-1075 : ℤ))) := by
  have hform : ((a.toMatrix n).hessenberg true).matrix.IsHessenberg :=
    Reduction.ofMatrix_isHessenberg (a.toMatrix n)
  have hhessenberg : a.hessenberg
      = .ok (.ofSimilar ((a.toMatrix n).hessenberg true) a.dtype.complexCounterpart) := by
    rw [hessenberg, hn]
    rfl
  refine ⟨⟨_, hhessenberg, ?_⟩, ?_⟩
  · intro row col hrow hcol
    have hrow' : row < n := hrow
    exact entry_eq_zero a.dtype hrow' (by omega) (hform row col hrow' hcol)
  · intro f hf
    simp only [schur, hn] at hf
    obtain ⟨t, ht, rfl⟩ := map_eq_ok.1 hf
    rcases Similar.triangularize_isUpperTriangular hform ht with hzero | ⟨hnorm, rfl⟩
    · left
      intro row col hrow hcol
      have hrow' : row < n := hrow
      exact entry_eq_zero a.dtype hrow' (by omega) (hzero row col hrow' hcol)
    · right
      refine ⟨hnorm, hhessenberg, fun hsize i hi j hj => ?_⟩
      exact DenseMatrix.isWithin_of_meanNorm_beq_zero hform hsize hnorm hi hj

/-- A single smallest number, below the diagonal. -/
def smallestBelowDiagonal : NumArray :=
  ⟨.matrix 2 2, ⟨.f64, #[0, 0, .ofBits 1, 0], none⟩⟩

theorem factors_haveZeros_smallestBelowDiagonal :
    squareOrder smallestBelowDiagonal.dims = .ok 2 ∧
      (∃ f, smallestBelowDiagonal.hessenberg = .ok f ∧ f.form.HasZerosBelow 1) ∧
        ∀ f, smallestBelowDiagonal.schur.value = .ok f →
          f.form.HasZerosBelow 0 ∨
            (meanNorm ((smallestBelowDiagonal.toMatrix 2).hessenberg true).matrix == 0) = true ∧
              smallestBelowDiagonal.hessenberg = .ok f ∧ (2 < 2 ^ 53 → ∀ i < 2, ∀ j < 2,
                (((smallestBelowDiagonal.toMatrix 2).hessenberg true).matrix i j).IsWithin
                  ((2 : Nat) * 2 ^ (-1075 : ℤ))) :=
  ⟨rfl, factors_haveZeros rfl⟩

/-- It is half of the smallest number that is compared with, which rounds to
zero, and the entry stays in the Schur form. -/
theorem schur_smallestBelowDiagonal :
    ∃ f, smallestBelowDiagonal.schur.value = .ok f ∧ f.form.entry 1 0 = ⟨.ofBits 1, 0⟩ ∧
      ¬f.form.HasZerosBelow 0 := by
  have hschur : smallestBelowDiagonal.schur.value = .ok {
      basis := ⟨.matrix 2 2, ⟨.c128, #[1, 0, 0, 1], some #[0, 0, 0, 0]⟩⟩
      form := ⟨.matrix 2 2, ⟨.c128, #[0, 0, .ofBits 1, 0], some #[0, 0, 0, 0]⟩⟩ } := by
    decide +kernel
  refine ⟨_, hschur, by decide +kernel, fun hzeros => ?_⟩
  exact absurd (hzeros 1 0 Nat.one_lt_two Nat.zero_lt_one) (by decide +kernel)

end NumArray

end DenseNumeric
