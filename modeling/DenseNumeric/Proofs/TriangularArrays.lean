import Mathlib
import DenseNumeric.Proofs.FiniteVectors
import DenseNumeric.Proofs.LowerBounds
import DenseNumeric.Proofs.ScaledPermutations
import DenseNumeric.Proofs.TriangularRuns

/-!
# Triangular arrays

Whether the eigenvalues of a triangular array are its diagonal, and its Schur
form the array itself. They are if the run has nothing to do, and whether it has
can be read off the array: either the norm is zero, or all thresholds are
positive. One part that is not tiny is enough for that. It keeps the norm away
from zero and the norm keeps all thresholds away from it, as a neighbourhood
that is small beside the norm is replaced by the norm.

An array of tiny numbers has a norm that is not zero and thresholds that are.
Its zeros are then not found negligible, and the run makes sweeps over a matrix
that is triangular already, until it gives up.
-/

namespace DenseNumeric

open Binary

variable {n : Nat}

/-! ## Positive thresholds -/

namespace DenseMatrix

variable {a : DenseMatrix n n (Complex Float)}

theorem threshold_pos_of_reaches (ha : a.IsFinite) {norm : Float}
    (hnorm : Reaches norm (2 ^ (-970 : ℤ))) {k : Nat} (hk : k + 1 < n) :
    0 < a.threshold norm k := by
  have hleast : IsNumber .binary64 (2 ^ (-1074 : ℤ)) := isNumber_two_zpow (by decide)
  have hnormal : IsNumber .binary64 (2 ^ (-1022 : ℤ)) := isNumber_two_zpow (by decide)
  have hpos (e : ℤ) : (0 : ℝ) < 2 ^ e := zpow_pos two_pos e
  have hunit {d e : ℤ} (hd : d = -52 + e) : (2 : ℝ) ^ d ≤ 2 ^ (-52 : ℤ) * 2 ^ e :=
    (hd ▸ zpow_add₀ two_ne_zero (-52) e).le
  have hproduct : Reaches (Arith.epsilon * norm) (2 ^ (-1022 : ℤ)) :=
    hnorm.epsilon_mul hnormal (hpos _).le (hunit rfl)
  have hneighbours : Reaches ((a k k).taxicab + (a (k + 1) (k + 1)).taxicab) 0 :=
    (Complex.reaches_taxicab (ha k k (by omega) (by omega))).add
      (Complex.reaches_taxicab (ha (k + 1) (k + 1) hk hk))
  have hweight : Reaches (if (a k k).taxicab + (a (k + 1) (k + 1)).taxicab < Arith.epsilon * norm
      then norm else (a k k).taxicab + (a (k + 1) (k + 1)).taxicab) (2 ^ (-1022 : ℤ)) := by
    split
    · exact hnorm.mono (zpow_le_zpow_right₀ one_le_two (by decide))
    · exact hneighbours.of_not_lt hproduct ‹_›
  exact (hweight.epsilon_mul hleast (hpos _).le (hunit rfl)).pos (hpos _)

/-- The norm is not below a part of an entry that it reads, divided by the order. -/
theorem reaches_meanNorm (ha : a.IsFinite) (hsize : n < 2 ^ 53) {i j : Nat} (hi : i < n)
    (hj : j < n) (hij : i ≤ j) {c : ℝ} (hc : IsNumber .binary64 c) (hc0 : 0 ≤ c)
    (hpart : n * c ≤ |toReal (a i j).re| ∨ n * c ≤ |toReal (a i j).im|) :
    Reaches (meanNorm a) c := by
  have horder := toReal_natCast hsize
  have hmem : a i j ∈ (List.range n).flatMap fun j => (List.range (min (j + 2) n)).map (a · j) :=
    List.mem_flatMap.2 ⟨j, List.mem_range.2 hj,
      List.mem_map.2 ⟨i, List.mem_range.2 (by omega), rfl⟩⟩
  have hlength := reaches_lengthOf (fun z hz => isFinite_of_mem_band ha hz) hmem hpart
  refine hlength.div (roundsTo_natCast hsize).isFinite ?_ hc hc0 ?_
  · rw [horder]
    exact_mod_cast Nat.zero_lt_of_lt hi
  · rw [horder, mul_comm]

/-- The norm of a matrix of zeros. -/
theorem meanNorm_of_zeros (hn : 0 < n) (hsize : n < 2 ^ 53)
    (h : ∀ i j, i < n → j < n → (a i j).Matches 0) : (meanNorm a == 0) = true := by
  have hzero : meanNorm a = 0 / (n : Float) := by
    have hlength : lengthOf
        ((List.range n).flatMap fun j => (List.range (min (j + 2) n)).map (a · j)) = 0 := by
      rw [lengthOf, List.foldl_ext (g := fun acc _ => Arith.hypot acc (0 : Float))]
      · generalize ((List.range n).flatMap fun j => (List.range (min (j + 2) n)).map (a · j)) = zs
        induction zs with
        | nil => rfl
        | cons z zs ih =>
            have hstep : Arith.hypot (0 : Float) 0 = 0 := by decide +kernel
            rw [List.foldl_cons, hstep]
            exact ih
      · intro acc z hz
        obtain ⟨j, hj, hz⟩ := List.mem_flatMap.1 hz
        obtain ⟨i, hi, rfl⟩ := List.mem_map.1 hz
        rw [List.mem_range] at hi hj
        rw [(h i j (by omega) hj).magnitude_of_zero]
    rw [meanNorm, hlength]
  rw [hzero]
  refine (matches_zero_div (roundsTo_natCast hsize).isFinite ?_).beq_zero
  rw [toReal_natCast hsize]
  exact_mod_cast hn.ne'

end DenseMatrix

/-! ## Arrays -/

namespace NumArray

variable {a : NumArray}

/-- A square array as a working matrix, and back. -/
theorem toNumArray_toMatrix (ha : a.IsValid) (hn : squareOrder a.dims = .ok n) (d : DType) :
    (a.toMatrix n).toNumArray d = a.astype d := by
  have hshape : a.shape = .matrix n n := Shape.eq_matrix_of_dims (squareOrder_eq_ok hn)
  refine ext_of_entry (toNumArray_isValid (pos_of_squareOrder ha hn) _ _) (astype_isValid ha d)
    (dtype_astype a d).symm hshape.symm fun i hi j hj => ?_
  refine (entry_mk_tabulate (s := .matrix n n) _ d hi hj).trans ?_
  rw [toMatrix, DenseMatrix.apply_of_lt a.entry (show i < n from hi) (show j < n from hj)]
  refine (Storage.loadComplex_cast ha.storage d ?_).symm
  exact offset_lt_size_of_isValid ha (by rwa [nrows, hshape]) (by rwa [ncols, hshape])

/-- The identity as a working matrix and as an array. -/
theorem identity_eq_ok (hn : 0 < n) (d : DType) :
    identity n d = .ok ((.identity : DenseMatrix n n (Complex Float)).toNumArray d) := by
  have hshape : Shape.ofDims [n, n] = .ok (.matrix n n) := if_neg (by omega)
  rw [identity, hshape]
  refine congrArg (fun values => Except.ok (NumArray.mk _ (.ofComplex values d))) ?_
  exact Shape.tabulate_congr fun i hi j hj => (DenseMatrix.get_identity hi hj).symm

/-- Matrices that match entry by entry make arrays that match. -/
theorem toNumArray_matches {m m' : DenseMatrix n n (Complex Float)}
    (h : ∀ i j, i < n → j < n → (m i j).Matches (m' i j)) (d : DType) :
    (m.toNumArray d).Matches (m'.toNumArray d) := by
  refine ⟨rfl, rfl, fun i hi j hj => ?_⟩
  have hentry (m : DenseMatrix n n (Complex Float)) :
      (m.toNumArray d).entry i j = d.element (m i j) :=
    entry_mk_tabulate (s := .matrix n n) m d hi hj
  rw [hentry, hentry]
  exact (h i j hi hj).element d

/-- The elements below the diagonal are zeros, of either sign. -/
def IsTriangular (a : NumArray) (n : Nat) : Prop :=
  ∀ i j, i < n → j < i → (a.entry i j).Matches 0

/-- No sweep is needed, whatever is asked for and however many sweeps are
allowed: the eigenvalues are the diagonal, and the Schur form is the array, in
the basis that it is in already. -/
structure IsOwnSchurForm (a : NumArray) (n : Nat) : Prop where
  eig : ∀ options, (a.eig options).NoSweep ∧ ∃ e, (a.eig options).value = .ok e ∧
    e.values = (a.astype a.dtype.complexCounterpart).diagonal
  eigvals : a.eigvals.NoSweep ∧
    a.eigvals.value = .ok (a.astype a.dtype.complexCounterpart).diagonal
  schur : a.schur.NoSweep ∧ ∃ f, a.schur.value = .ok f ∧
    identity n a.dtype.complexCounterpart = .ok f.basis ∧
    f.form.Matches (a.astype a.dtype.complexCounterpart)

/-- Some part of an element is at least `c` in size. -/
def HasPart (a : NumArray) (n : Nat) (c : ℝ) : Prop :=
  ∃ i j, i < n ∧ j < n ∧ (c ≤ |toReal (a.entry i j).re| ∨ c ≤ |toReal (a.entry i j).im|)

/-- There is no run, or every zero below the diagonal is negligible in it. -/
def IsQuiet (a : NumArray) (n : Nat) : Prop :=
  (meanNorm (a.toMatrix n) == 0) = true ∨
    ∀ k, k + 1 < n → 0 < (a.toMatrix n).threshold (meanNorm (a.toMatrix n)) k

theorem isClearBelow_toMatrix (htriangular : a.IsTriangular n) :
    (a.toMatrix n).IsClearBelow := by
  intro i j hi hj
  rw [toMatrix, DenseMatrix.apply_of_lt _ hi (by omega)]
  exact htriangular i j hi hj

theorem eig_of_isQuiet (ha : a.IsValid) (hn : squareOrder a.dims = .ok n)
    (htriangular : a.IsTriangular n) (h : a.IsQuiet n) (options : EigenOptions) :
    (a.eig options).NoSweep ∧ ∃ e, (a.eig options).value = .ok e ∧
      e.values = (a.astype a.dtype.complexCounterpart).diagonal := by
  have hvalues : (⟨.vector n, .ofComplex (a.toMatrix n).diagonal.toArray
      a.dtype.complexCounterpart⟩ : NumArray) = (a.astype a.dtype.complexCounterpart).diagonal := by
    rw [← toNumArray_toMatrix ha hn, DenseMatrix.diagonal_toNumArray]
  rw [← hvalues]
  by_cases hone : n = 1
  · have heig : (a.toMatrix n).eigensystem options = .quiet (.ok {
        values := (a.toMatrix n).diagonal
        left := if options.left then some .identity else none
        right := if options.right then some .identity else none }) := if_pos hone
    refine ⟨fun r hr => ?_, ?_⟩
    · simp only [eig, hn, heig] at hr
      exact absurd hr List.not_mem_nil
    · rw [value_eig_of_order hn, heig]
      exact ⟨_, rfl, rfl⟩
  · have hclear := isClearBelow_toMatrix htriangular
    obtain ⟨hrecords, t, ht, -, happly⟩ := DenseMatrix.triangularize_hessenberg_of_rests hclear
      (options.left || options.right) ((DenseMatrix.rests_hessenberg_iff hclear _).2 h)
      options.maxIterations
    have hdiagonal : t.matrix.diagonal = (a.toMatrix n).diagonal := by
      refine List.map_congr_left fun i hi => ?_
      rw [List.mem_range] at hi
      exact (happly i i hi hi).resolve_right fun hlt => Nat.lt_irrefl i hlt.1
    refine ⟨fun r hr => ?_, ?_⟩
    · simp only [eig, hn, DenseMatrix.eigensystem, if_neg hone, Logged.map, Logged.andThen,
        ht] at hr
      rcases List.mem_append.1 hr with hr | hr
      · exact hrecords r hr
      · obtain rfl := List.mem_singleton.1 hr
        rfl
    · rw [value_eig_of_order hn, DenseMatrix.eigensystem_of_ne_one hone, ht]
      refine ⟨_, rfl, ?_⟩
      rw [← hdiagonal]
      rfl

theorem schur_of_isQuiet (ha : a.IsValid) (hn : squareOrder a.dims = .ok n)
    (htriangular : a.IsTriangular n) (h : a.IsQuiet n) :
    a.schur.NoSweep ∧ ∃ f, a.schur.value = .ok f ∧
      identity n a.dtype.complexCounterpart = .ok f.basis ∧
      f.form.Matches (a.astype a.dtype.complexCounterpart) := by
  have hclear := isClearBelow_toMatrix htriangular
  obtain ⟨hrecords, t, ht, hbasis, happly⟩ := DenseMatrix.triangularize_hessenberg_of_rests hclear
    true ((DenseMatrix.rests_hessenberg_iff hclear true).2 h) defaultLimit
  have hvalue : ((a.toMatrix n).schur defaultLimit).value = .ok t := ht
  have hschur : a.schur = ((a.toMatrix n).schur defaultLimit).map fun r =>
      r.map (Factors.ofSimilar · a.dtype.complexCounterpart) := by
    simp only [schur, hn]
  rw [hschur]
  refine ⟨hrecords, .ofSimilar t a.dtype.complexCounterpart, ?_, ?_, ?_⟩
  · rw [Logged.map, hvalue]
    rfl
  · rw [identity_eq_ok (pos_of_squareOrder ha hn), Factors.ofSimilar, hbasis]
    rfl
  · rw [← toNumArray_toMatrix ha hn]
    refine toNumArray_matches (fun i j hi hj => ?_) _
    rcases happly i j hi hj with heq | ⟨hij, hzero⟩
    · exact .of_eq heq
    · exact (Complex.Matches.of_eq hzero).trans (hclear i j hi hij).symm

/-- One part that is not tiny keeps the run quiet, and so do zeros alone. -/
theorem isQuiet_of_isFinite (hn : 0 < n) (hsize : n < 2 ^ 53) (htriangular : a.IsTriangular n)
    (hfinite : ∀ i j, i < n → j < n → (a.entry i j).isFinite = true)
    (h : (∀ i j, i < n → j < n → (a.entry i j).Matches 0) ∨ a.HasPart n (n * 2 ^ (-970 : ℤ))) :
    a.IsQuiet n := by
  have happly {i j : Nat} (hi : i < n) (hj : j < n) : a.toMatrix n i j = a.entry i j :=
    DenseMatrix.apply_of_lt a.entry hi hj
  have hmatrix : (a.toMatrix n).IsFinite := fun i j hi hj => happly hi hj ▸ hfinite i j hi hj
  rcases h with hzero | ⟨i, j, hi, hj, hpart⟩
  · exact .inl (DenseMatrix.meanNorm_of_zeros hn hsize fun i j hi hj =>
      happly hi hj ▸ hzero i j hi hj)
  · -- a part that is not zero is not below the diagonal
    have hij : i ≤ j := by
      by_contra hlt
      have hzero := htriangular i j hi (Nat.not_le.1 hlt)
      have hpos : (0 : ℝ) < n * 2 ^ (-970 : ℤ) :=
        mul_pos (by exact_mod_cast hn) (zpow_pos two_pos _)
      have hvalue {x : Float} (hx : Binary.Matches x 0) : |toReal x| = 0 := by
        rw [(float_beq_iff hx.isFinite_of_zero isFinite_zero).1 hx.beq_zero, toReal_zero, abs_zero]
      rw [hvalue hzero.re, hvalue hzero.im, or_self] at hpart
      exact absurd hpos (not_lt.2 hpart)
    have hnorm := DenseMatrix.reaches_meanNorm hmatrix hsize hi hj hij
      (isNumber_two_zpow (e := -970) (by decide)) (zpow_pos two_pos _).le (by rwa [happly hi hj])
    exact .inr fun k hk => DenseMatrix.threshold_pos_of_reaches hmatrix hnorm hk

/-- A triangular array is its own Schur form, found without a sweep, exactly if
its norm is zero or all of its thresholds are positive. Where all parts are
finite this is so for an array of zeros, and for every array with a part that is
not below `n * 2 ^ (-970)`. -/
theorem isOwnSchurForm_iff (ha : a.IsValid) (hn : squareOrder a.dims = .ok n)
    (htriangular : a.IsTriangular n) :
    (a.IsOwnSchurForm n ↔ a.IsQuiet n) ∧
      (n < 2 ^ 53 → a.IsFinite →
        (∀ i j, i < n → j < n → (a.entry i j).Matches 0) ∨ a.HasPart n (n * 2 ^ (-970 : ℤ)) →
          a.IsOwnSchurForm n) := by
  have hclear := isClearBelow_toMatrix htriangular
  have hiff : a.IsOwnSchurForm n ↔ a.IsQuiet n := by
    constructor
    · rintro ⟨-, -, hrecords, f, hf, -⟩
      simp only [schur, hn] at hrecords hf
      obtain ⟨t, ht, -⟩ := map_eq_ok.1 hf
      refine (DenseMatrix.rests_hessenberg_iff hclear true).1 ?_
      exact (Similar.triangularize_noSweep_iff (DenseMatrix.isClearBelow_hessenberg hclear true)
        defaultLimit).1 ⟨hrecords, t, ht⟩
    · intro h
      have heig := eig_of_isQuiet ha hn htriangular h
      refine ⟨heig, ?_, schur_of_isQuiet ha hn htriangular h⟩
      obtain ⟨hrecords, e, he, hvalues⟩ := heig .valuesOnly
      refine ⟨hrecords, ?_⟩
      rw [eigvals, Logged.map, he, ← hvalues]
      rfl
  refine ⟨hiff, fun hsize hfinite h => hiff.2 ?_⟩
  refine isQuiet_of_isFinite (pos_of_squareOrder ha hn) hsize htriangular (fun i j hi hj => ?_) h
  have hshape : a.shape = .matrix n n := Shape.eq_matrix_of_dims (squareOrder_eq_ok hn)
  exact hfinite i j (by rwa [nrows, hshape]) (by rwa [ncols, hshape])

/-- Zeros of both signs below the diagonal, and on it a zero, a smallest and a
largest number. The norm is out of range. -/
def unevenTriangle : NumArray :=
  ⟨.matrix 3 3, .ofElements #[(0 : Float), 2, .ofBits 0x7fefffffffffffff, -0, .ofBits 1, -1, 0, -0,
    .ofBits 0x7fefffffffffffff]⟩

theorem isOwnSchurForm_iff_unevenTriangle :
    (unevenTriangle.IsValid ∧ squareOrder unevenTriangle.dims = .ok 3 ∧
        unevenTriangle.IsTriangular 3) ∧
      3 < 2 ^ 53 ∧ unevenTriangle.IsFinite ∧
        unevenTriangle.HasPart 3 ((3 : Nat) * 2 ^ (-970 : ℤ)) ∧
          unevenTriangle.IsOwnSchurForm 3 ∧ unevenTriangle.IsQuiet 3 := by
  have hvalid : unevenTriangle.IsValid := isValid_mk_ofElements (by decide) rfl
  have hentries : ∀ i j : Fin 3, (unevenTriangle.entry i j).isFinite = true ∧
      (j < i → (unevenTriangle.entry i j).Matches 0) := by
    decide +kernel
  have htriangular : unevenTriangle.IsTriangular 3 :=
    fun i j hi hj => (hentries ⟨i, hi⟩ ⟨j, hj.trans hi⟩).2 hj
  have hfinite : unevenTriangle.IsFinite := fun i j hi hj => (hentries ⟨i, hi⟩ ⟨j, hj⟩).1
  have hpart : unevenTriangle.HasPart 3 ((3 : Nat) * 2 ^ (-970 : ℤ)) := by
    refine ⟨0, 1, by decide, by decide, .inl ?_⟩
    have htwo : (unevenTriangle.entry 0 1).re = ((2 : Nat) : Float) := by decide +kernel
    have htiny : (2 : ℝ) ^ (-970 : ℤ) ≤ 2 ^ (-1 : ℤ) :=
      zpow_le_zpow_right₀ one_le_two (by decide)
    rw [htwo, toReal_natCast (by decide), Nat.abs_cast]
    rw [zpow_neg_one] at htiny
    push_cast
    linarith
  obtain ⟨hiff, hquiet⟩ := isOwnSchurForm_iff hvalid (n := 3) rfl htriangular
  have hown := hquiet (by decide) hfinite (.inr hpart)
  exact ⟨⟨hvalid, rfl, htriangular⟩, by decide, hfinite, hpart, hown, hiff.1 hown⟩

/-- A number that is not zero, twice, and small enough for the rounding unit to
leave nothing of it. -/
def tinyDiagonal : NumArray :=
  ⟨.matrix 2 2, ⟨.f64, #[.ofBits 0x0000000400000000, 0, 0, .ofBits 0x0000000400000000], none⟩⟩

/-- No zero is below a threshold of zero, and the run gives up. -/
theorem eig_tinyDiagonal :
    tinyDiagonal.IsTriangular 2 ∧ tinyDiagonal.IsFinite ∧
      (tinyDiagonal.eig ⟨false, false, 0⟩).value = .error (.noConvergence 1) ∧
      ¬tinyDiagonal.IsOwnSchurForm 2 := by
  have heig : (tinyDiagonal.eig ⟨false, false, 0⟩).value = .error (.noConvergence 1) := by
    decide +kernel
  have hentries : ∀ i j : Fin 2, (tinyDiagonal.entry i j).isFinite = true ∧
      (j < i → (tinyDiagonal.entry i j).Matches 0) := by
    decide +kernel
  refine ⟨fun i j hi hj => (hentries ⟨i, hi⟩ ⟨j, hj.trans hi⟩).2 hj,
    fun i j hi hj => (hentries ⟨i, hi⟩ ⟨j, hj⟩).1, heig, fun h => ?_⟩
  obtain ⟨-, e, he, -⟩ := h.eig ⟨false, false, 0⟩
  rw [heig] at he
  cases he

end NumArray

end DenseNumeric
