import Mathlib
import DenseNumeric.Proofs.FiniteReduction
import DenseNumeric.Proofs.FiniteVectors
import DenseNumeric.Proofs.Narrowing

/-!
# Finite bases

Which arrays in double precision have a basis with finite parts only, when they
are brought into Hessenberg form: those where no row has an infinite sum at its
turn. Arrays that are not too large have none.

A row of a large array may have one although all its elements are finite. The
row is not left alone then, as the reciprocal of an infinity is a number that
can be multiplied with; it is zero, and the basis is undefined.
-/

namespace DenseNumeric

open Binary

namespace NumArray

variable {a : NumArray} {n : Nat}

/-- How much longer a reflection can make a vector, rounding apart. Reflections
of real arrays keep lengths; in complex ones, the phase of a tiny number need
not be of length one. -/
noncomputable def stretch (a : NumArray) : ℝ := ((if a.isComplex then 2 else 1 : ℕ) : ℝ)

theorem stretch_bounds (a : NumArray) : 1 ≤ a.stretch ∧ a.stretch ≤ 2 := by
  unfold stretch
  split
  · rw [Nat.cast_ofNat]
    exact ⟨one_le_two, le_rfl⟩
  · rw [Nat.cast_one]
    exact ⟨le_rfl, one_le_two⟩

theorem hasShortVectors_toMatrix (ha : a.IsValid) (hlimit : n ≤ orderLimit) :
    Reduction.HasShortVectors (a.toMatrix n) a.stretch := by
  unfold stretch
  split
  · rw [Nat.cast_ofNat]
    exact Reduction.hasShortVectors_two hlimit
  · next hreal =>
      rw [Nat.cast_one]
      refine Reduction.hasShortVectors_one hlimit fun j hj k hk => ?_
      have him : (a.entry j k).im = 0 :=
        Storage.loadComplex_im_of_real ha.storage (Bool.eq_false_iff.2 hreal) _
      rw [toMatrix, DenseMatrix.apply_of_lt _ hj hk, Complex.IsReal, him]
      exact isNull_zero

theorem isFinite_toNumArray_iff {d : DType} (hd : d.IsDouble)
    {m : DenseMatrix n n (Complex Float)} :
    (m.toNumArray d.complexCounterpart).IsFinite ↔ m.IsFinite := by
  rw [hd.complexCounterpart]
  refine forall_congr' fun i => forall_congr' fun j => forall_congr' fun hi =>
    forall_congr' fun hj => ?_
  have hkept (x : Float) : DType.c128.quantize x = x := DType.IsDouble.quantize (.inr rfl) x
  rw [m.entry_toNumArray (show DType.c128.isComplex = true from rfl) hi hj, hkept, hkept]

/-- The basis is finite exactly if no row is divided by an infinity. None is
where all parts are bounded by a number that leaves room for the reflections. -/
theorem hessenberg_basis_isFinite_iff (ha : a.IsValid) (hn : squareOrder a.dims = .ok n)
    (hdouble : a.dtype.IsDouble) (hlimit : n ≤ orderLimit)
    (hroom : a.stretch ^ n ≤ 2 ^ 1000) :
    ∃ f, a.hessenberg = .ok f ∧
      (f.basis.IsFinite ↔
        ∀ i, 2 ≤ i → i < n → (Reduction.rowScale (a.toMatrix n) i).isInf = false) ∧
      ∀ b : ℝ, 1 ≤ b → (∀ i < n, ∀ j < n, (a.entry i j).IsWithin b) →
        n ^ 2 * b * (a.stretch ^ n) ^ 2 ≤ 2 ^ 990 → f.basis.IsFinite := by
  obtain ⟨hone, htwo⟩ := a.stretch_bounds
  have hshort := hasShortVectors_toMatrix ha hlimit
  have hhessenberg : a.hessenberg
      = .ok (.ofSimilar ((a.toMatrix n).hessenberg true) a.dtype.complexCounterpart) := by
    rw [hessenberg, hn]
    rfl
  have hiff := (isFinite_toNumArray_iff hdouble).trans
    (Reduction.basis_isFinite_iff hlimit hone htwo hshort hroom)
  refine ⟨_, hhessenberg, hiff, fun b hb hentries hsize => hiff.2 fun i hi hin => ?_⟩
  refine isInf_of_isFinite (Reduction.rowScale_isFinite_of_isWithin hlimit hone htwo hshort hb
    (fun j hj k hk => ?_) hsize (by omega) hin)
  rw [toMatrix, DenseMatrix.apply_of_lt _ hj hk]
  exact hentries j hj k hk

/-- A last row of a smallest and a large number, so that the reflection has a
coordinate that is next to nothing. -/
def unevenRow : NumArray :=
  ⟨.matrix 3 3, .ofElements #[(1 : Float), -0, -1, 0, 2, .ofBits 1, .ofBits 1, 4503599627370496, 1]⟩

theorem hessenberg_basis_isFinite_iff_unevenRow :
    (unevenRow.IsValid ∧ squareOrder unevenRow.dims = .ok 3 ∧ unevenRow.dtype.IsDouble ∧
        3 ≤ orderLimit ∧ unevenRow.stretch ^ 3 ≤ 2 ^ 1000) ∧
      ∃ b : ℝ, (1 ≤ b ∧ (∀ i < 3, ∀ j < 3, (unevenRow.entry i j).IsWithin b) ∧
          (3 : Nat) ^ 2 * b * (unevenRow.stretch ^ 3) ^ 2 ≤ 2 ^ 990) ∧
        ∃ f, unevenRow.hessenberg = .ok f ∧ f.basis.IsFinite ∧
          (Reduction.rowScale (unevenRow.toMatrix 3) 2).isInf = false := by
  have hvalid : unevenRow.IsValid := isValid_mk_ofElements (by decide) rfl
  have hdouble : unevenRow.dtype.IsDouble := .inl rfl
  have hlimit : 3 ≤ orderLimit := by decide
  have hstretch : unevenRow.stretch = 1 := Nat.cast_one
  have hroom : unevenRow.stretch ^ 3 ≤ 2 ^ 1000 := by
    rw [hstretch, one_pow]
    exact one_le_pow₀ one_le_two
  have hlarge : toReal ((2 ^ 52 : Nat) : Float) = 2 ^ 52 := by
    rw [toReal_natCast (by decide), Nat.cast_pow, Nat.cast_ofNat]
  have hmagnitude : ∀ i j : Fin 3, (unevenRow.entry i j).magnitude.isFinite = true ∧
      ¬((2 ^ 52 : Nat) : Float) < (unevenRow.entry i j).magnitude := by
    decide +kernel
  have hentries : ∀ i < 3, ∀ j < 3, (unevenRow.entry i j).IsWithin (2 ^ 52) := by
    intro i hi j hj
    obtain ⟨hfinite, hle⟩ := hmagnitude ⟨i, hi⟩ ⟨j, hj⟩
    rw [float_lt_iff (roundsTo_natCast (by decide)).isFinite hfinite, hlarge, not_lt] at hle
    exact (Complex.isWithin_magnitude hfinite).mono hle
  have hsize : ((3 : Nat) : ℝ) ^ 2 * 2 ^ 52 * (unevenRow.stretch ^ 3) ^ 2 ≤ 2 ^ 990 := by
    rw [hstretch, one_pow, one_pow, mul_one]
    calc ((3 : Nat) : ℝ) ^ 2 * 2 ^ 52 ≤ 2 ^ 4 * 2 ^ 52 := by norm_num
      _ ≤ 2 ^ 990 := by
        rw [← pow_add]
        exact pow_le_pow_right₀ one_le_two (by decide)
  obtain ⟨f, hf, hiff, hbound⟩ := hessenberg_basis_isFinite_iff hvalid (n := 3) rfl hdouble hlimit
    hroom
  have hfinite := hbound (2 ^ 52) (one_le_pow₀ one_le_two) hentries hsize
  exact ⟨⟨hvalid, rfl, hdouble, hlimit, hroom⟩, _, ⟨one_le_pow₀ one_le_two, hentries, hsize⟩, f, hf,
    hfinite, hiff.1 hfinite 2 le_rfl (by decide)⟩

/-- A last row of two large numbers, `3 * c` and `4 * c` with `c = 5 * 2 ^ 1019`. Its length
of `5 * c` is in range. -/
def hugeRow : NumArray :=
  ⟨.matrix 3 3, .ofElements #[(0 : Float), 0, 0, 0, 0, 0, .ofBits 0x7fde000000000000,
    .ofBits 0x7fe4000000000000, 0]⟩

/-- Their sum is out of range, and they are divided by an infinity. -/
theorem hessenberg_hugeRow :
    hugeRow.IsFinite ∧ ∃ f, hugeRow.hessenberg = .ok f ∧ ¬f.basis.IsFinite := by
  have hfinite : ∀ row col : Fin 3, (hugeRow.entry row col).isFinite = true := by
    decide +kernel
  refine ⟨fun row col hrow hcol => hfinite ⟨row, hrow⟩ ⟨col, hcol⟩, _, rfl, fun hbasis => ?_⟩
  exact absurd (hbasis 0 0 (by decide) (by decide)) (by decide +kernel)

end NumArray

end DenseNumeric
