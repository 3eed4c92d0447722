import Mathlib
import DenseNumeric.Proofs.FloatBounds
import DenseNumeric.Proofs.Substitution

/-!
# Substitution in double precision

The vector that substitution finds for a diagonal entry of a triangular matrix
of doubles: all its parts are finite and at most one, if the matrix is modest.

The entries found so far are at most `2 ^ 26` when a new one is formed, and the
difference of eigenvalues that is divided by is replaced if it is too small. So
the quotient is in range unless the numerator is out of all proportion to the
eigenvalue, and the length of the new entry is as well. A vector that has grown
too large is divided by its largest length, and so is the last one.
-/

namespace DenseNumeric

open Binary

variable {n : Nat}

/-! ## Gaps in double precision -/

/-- Entries of this size leave room for the sums and products of a
substitution. -/
noncomputable def sizeBound : ℝ := ((2 : ℕ) : ℝ) ^ 900

theorem sizeBound_eq : sizeBound = 2 ^ 900 := by rw [sizeBound, Nat.cast_ofNat]

theorem sizeBound_pos : 0 < sizeBound := sizeBound_eq ▸ pow_pos two_pos 900

theorem isNumber_sizeBound : IsNumber .binary64 sizeBound := by
  rw [sizeBound_eq, ← zpow_natCast]
  exact isNumber_two_zpow (by decide)

theorem two_pow_mul_sizeBound_lt {k : ℕ} (hk : k ≤ 122) : 2 ^ k * sizeBound < safeBound := by
  rw [sizeBound_eq, ← pow_add]
  exact two_pow_lt_safeBound (by omega)

theorem smallestGap_spec (hsize : n < 2 ^ 53) :
    (smallestGap n : Float).isFinite = true ∧ toReal (smallestGap n) = n * 2 ^ (-970 : ℤ) := by
  have hcount := roundsTo_natCast hsize
  have hvalue := toReal_natCast hsize
  have hn : (n : ℝ) ≤ 2 ^ 53 := by exact_mod_cast hsize.le
  have hquotient : RoundsTo (n * 2 ^ (52 : ℤ)) ((n : Float) / Arith.epsilon) := by
    have := rounds_div hcount.isFinite isFinite_epsilon (by rw [toReal_epsilon]; positivity)
    rw [hvalue, toReal_epsilon, zpow_neg, div_inv_eq_mul] at this
    refine this.roundsTo ?_
    rw [abs_of_nonneg (by positivity)]
    calc (n : ℝ) * 2 ^ (52 : ℤ) ≤ 2 ^ 53 * 2 ^ 52 :=
          mul_le_mul_of_nonneg_right hn (by positivity)
      _ = 2 ^ 105 := (pow_add 2 53 52).symm
      _ < safeBound := two_pow_lt_safeBound (by decide)
  have hquotient' := hquotient.of_isNumber (isNumber_natCast_mul_two_zpow hsize (by decide))
  have hexact : (2 : ℝ) ^ (-1022 : ℤ) * (n * 2 ^ (52 : ℤ)) = n * 2 ^ (-970 : ℤ) := by
    rw [mul_left_comm, ← zpow_add₀ two_ne_zero]
    congr 1
  have hproduct : RoundsTo (n * 2 ^ (-970 : ℤ)) (smallestGap n : Float) := by
    have := rounds_mul isFinite_minPositive hquotient.isFinite
    rw [toReal_minPositive, hquotient', hexact] at this
    refine this.roundsTo ?_
    rw [abs_of_nonneg (by positivity)]
    calc (n : ℝ) * 2 ^ (-970 : ℤ) ≤ 2 ^ 53 * 1 :=
          mul_le_mul hn (zpow_le_one_of_nonpos₀ one_le_two (by decide)) (by positivity)
            (by positivity)
      _ < safeBound := by
          rw [mul_one]
          exact two_pow_lt_safeBound (by decide)
  exact ⟨hproduct.isFinite, hproduct.of_isNumber (isNumber_natCast_mul_two_zpow hsize (by decide))⟩

/-- The length of a number within `a`. -/
theorem Complex.IsWithin.magnitude {z : Complex Float} {a : ℝ} (hz : z.IsWithin a)
    (hsize : 2 * a < safeBound) :
    z.magnitude.isFinite = true ∧ toReal z.magnitude ≤ 2 * (|toReal z.re| + |toReal z.im|) := by
  have hle : ‖z.exact.toC‖ ≤ |toReal z.re| + |toReal z.im| :=
    Complex.norm_le_abs_re_add_abs_im z.exact.toC
  have hround := magnitude_roundsTo hz.isFinite
    (by linarith [hz.re.abs_le, hz.im.abs_le])
  have := hround.isNearest.abs_le_two_mul
  rw [abs_of_nonneg (norm_nonneg _)] at this
  exact ⟨hround.isFinite, by linarith [le_abs_self (toReal z.magnitude)]⟩

/-- Rounding keeps half of a number, or the number is among the smallest. -/
theorem Binary.RoundsTo.half_le_or_lt {r : ℝ} {y : Float} (h : RoundsTo r y) :
    r / 2 ≤ toReal y ∨ r < 2 ^ Float.Model.Format.binary64.minExponent := by
  rcases le_or_gt (2 ^ Float.Model.Format.binary64.minExponent) r with hr | hr
  · exact .inl (h.isNearest.half_lt hr).le
  · exact .inr hr

/-- The least gap is counted in units of the smallest gap, and in units of the
eigenvalue. -/
theorem least_spec (hn : 0 < n) (hsize : n < 2 ^ 53) {s : Complex Float}
    (hs : s.IsWithin sizeBound) :
    let least : Float := Arith.larger (Arith.epsilon * s.magnitude) (smallestGap n)
    least.isFinite = true ∧ toReal least ≤ sizeBound ∧ n * 2 ^ (-970 : ℤ) ≤ toReal least ∧
      max |toReal s.re| |toReal s.im| * 2 ^ (-53 : ℤ) ≤ toReal least := by
  intro least
  have hroom : 2 ^ 3 * sizeBound < safeBound := two_pow_mul_sizeBound_lt (by decide)
  have hbound0 := sizeBound_pos
  obtain ⟨hmag, hmag'⟩ := hs.magnitude (by linarith)
  have hparts := Complex.isWithin_magnitude hmag
  have hmag4 : toReal s.magnitude ≤ 4 * sizeBound := by linarith [hs.re.abs_le, hs.im.abs_le]
  have hround := epsilon_mul_roundsTo hmag
  obtain ⟨hgap, hgap'⟩ := smallestGap_spec hsize
  obtain ⟨hleast, hleast'⟩ := larger_spec hround.isFinite hgap
  rw [hgap'] at hleast'
  have hn1 : (1 : ℝ) ≤ n := by exact_mod_cast hn
  have hn53 : (n : ℝ) ≤ 2 ^ 53 := by exact_mod_cast hsize.le
  have hcount : n * 2 ^ (-970 : ℤ) ≤ toReal least := hleast' ▸ le_max_right _ _
  refine ⟨hleast, ?_, hcount, ?_⟩
  · have hunit : (2 : ℝ) ^ (-52 : ℤ) ≤ 1 / 4 := by norm_num
    rw [hleast', max_le_iff]
    constructor
    · refine hround.isNearest.le_of_le isNumber_sizeBound ?_
      calc 2 ^ (-52 : ℤ) * toReal s.magnitude ≤ 1 / 4 * (4 * sizeBound) :=
            mul_le_mul hunit hmag4 hparts.re.nonneg (by norm_num)
        _ = sizeBound := by ring
    · calc (n : ℝ) * 2 ^ (-970 : ℤ) ≤ 2 ^ 53 * 1 :=
            mul_le_mul hn53 (zpow_le_one_of_nonpos₀ one_le_two (by decide)) (by positivity)
              (by positivity)
        _ ≤ sizeBound := by
            rw [mul_one]
            exact pow_le_pow_right₀ one_le_two (by decide)
  · set m := max |toReal s.re| |toReal s.im|
    have hm : m ≤ toReal s.magnitude := max_le hparts.re.abs_le hparts.im.abs_le
    have hhalf : m * 2 ^ (-53 : ℤ) ≤ 2 ^ (-52 : ℤ) * toReal s.magnitude / 2 := by
      have hsplit : (2 : ℝ) ^ (-52 : ℤ) = 2 * 2 ^ (-53 : ℤ) := by
        rw [← zpow_one_add₀ two_ne_zero]
        norm_num
      rw [hsplit, mul_assoc, mul_div_cancel_left₀ _ two_ne_zero, mul_comm]
      exact mul_le_mul_of_nonneg_left hm (zpow_pos two_pos _).le
    rcases hround.half_le_or_lt with hkept | htiny
    · exact hhalf.trans (hkept.trans (hleast' ▸ le_max_left _ _))
    · -- what is lost in rounding is no match for the smallest gap
      have hproduct : 0 ≤ 2 ^ (-52 : ℤ) * toReal s.magnitude :=
        mul_nonneg (zpow_pos two_pos _).le hparts.re.nonneg
      calc m * 2 ^ (-53 : ℤ) ≤ 2 ^ (-52 : ℤ) * toReal s.magnitude :=
            hhalf.trans (half_le_self hproduct)
        _ ≤ 2 ^ Float.Model.Format.binary64.minExponent := htiny.le
        _ ≤ 2 ^ (-970 : ℤ) := zpow_le_zpow_right₀ one_le_two (by decide)
        _ ≤ n * 2 ^ (-970 : ℤ) := le_mul_of_one_le_left (zpow_pos two_pos _).le hn1
        _ ≤ toReal least := hcount

/-- A gap has a part that is at least a quarter of the least one. -/
theorem gap_spec (hn : 0 < n) (hsize : n < 2 ^ 53) {d s : Complex Float}
    (hd : d.IsWithin sizeBound) (hs : s.IsWithin sizeBound) :
    ∃ least, (gap n d s).IsWithin (4 * sizeBound) ∧
      (least / 4 ≤ |toReal (gap n d s).re| ∨ least / 4 ≤ |toReal (gap n d s).im|) ∧
      n * 2 ^ (-970 : ℤ) ≤ least ∧ max |toReal s.re| |toReal s.im| * 2 ^ (-53 : ℤ) ≤ least := by
  obtain ⟨hleast, hle, hcount, hvalue⟩ := least_spec hn hsize hs
  set least : Float := Arith.larger (Arith.epsilon * s.magnitude) (smallestGap n) with hdef
  have hbound0 := sizeBound_pos
  have hleast0 : 0 ≤ toReal least := le_trans (by positivity) hcount
  refine ⟨toReal least, ?_⟩
  simp only [gap, ← hdef]
  split
  · refine ⟨⟨⟨hleast, ?_⟩, ⟨isFinite_zero, ?_⟩⟩, .inl ?_, hcount, hvalue⟩
    · show |toReal least| ≤ 4 * sizeBound
      rw [abs_of_nonneg hleast0]
      linarith
    · show |toReal 0| ≤ 4 * sizeBound
      rw [toReal_zero, abs_zero]
      linarith
    · show toReal least / 4 ≤ |toReal least|
      rw [abs_of_nonneg hleast0]
      linarith
  · rename_i hnot
    have hroom : 2 ^ 3 * sizeBound < safeBound := two_pow_mul_sizeBound_lt (by decide)
    have hdifference : (d - s).IsWithin (sizeBound + 2 * sizeBound) := hd.sub hs (by linarith)
    obtain ⟨hmag, hmag'⟩ := hdifference.magnitude (by linarith)
    rw [float_lt_iff hmag hleast, not_lt] at hnot
    refine ⟨hdifference.mono (by linarith), ?_, hcount, hvalue⟩
    by_contra! hsmall
    linarith [hsmall.1, hsmall.2]

/-! ## Growth -/

/-- Entries are scaled down when they have grown beyond this. -/
theorem growth_threshold :
    (1 / Arith.sqrt Arith.epsilon : Float).isFinite = true ∧
      toReal (1 / Arith.sqrt Arith.epsilon) = 2 ^ 26 := by
  have hsize : (2 : ℝ) ^ 26 < safeBound := two_pow_lt_safeBound (by decide)
  have hroot : √((2 : ℝ) ^ (-52 : ℤ)) = 2 ^ (-26 : ℤ) := by
    have hsq : (2 : ℝ) ^ (-52 : ℤ) = (2 ^ (-26 : ℤ)) ^ 2 := by
      rw [← zpow_natCast, ← zpow_mul]
      norm_num
    rw [hsq, Real.sqrt_sq (zpow_pos two_pos _).le]
  have hsqrt : RoundsTo (2 ^ (-26 : ℤ)) (Arith.sqrt Arith.epsilon) := by
    have := rounds_sqrt isFinite_epsilon (by rw [toReal_epsilon]; positivity)
    rw [toReal_epsilon, hroot] at this
    refine this.roundsTo ?_
    rw [abs_of_pos (zpow_pos two_pos _)]
    exact (zpow_le_one_of_nonpos₀ one_le_two (by decide)).trans_lt one_lt_safeBound
  have hvalue := hsqrt.of_isNumber (isNumber_two_zpow (by decide))
  have hquotient : RoundsTo (2 ^ 26) (1 / Arith.sqrt Arith.epsilon) := by
    have := rounds_div isFinite_one hsqrt.isFinite (by rw [hvalue]; positivity)
    rw [toReal_one, hvalue, zpow_neg, one_div, inv_inv, zpow_ofNat] at this
    refine this.roundsTo ?_
    rwa [abs_of_pos (pow_pos two_pos 26)]
  refine ⟨hquotient.isFinite, hquotient.of_isNumber ?_⟩
  rw [← zpow_natCast]
  exact isNumber_two_zpow (by decide)

namespace Partial

/-- The growth covers all entries. It is one or more, and at most `bound`. -/
structure Covers (p : Partial Float) (bound : ℝ) : Prop where
  isFinite : p.growth.isFinite = true
  one_le : 1 ≤ toReal p.growth
  le : toReal p.growth ≤ bound
  isWithin : ∀ e ∈ p.entries, e.IsWithin (toReal p.growth)

namespace Covers

variable {p : Partial Float} {b c : ℝ}

theorem mono (h : p.Covers b) (hbc : b ≤ c) : p.Covers c :=
  ⟨h.isFinite, h.one_le, h.le.trans hbc, h.isWithin⟩

theorem start : Partial.start.Covers 1 := by
  refine ⟨isFinite_one, toReal_one.ge, toReal_one.le, fun e he => ?_⟩
  obtain rfl := List.mem_singleton.1 he
  exact .mono .one toReal_one.ge

theorem scaleDown (h : p.Covers b) : p.scaleDown.Covers 1 := by
  refine ⟨isFinite_one, toReal_one.ge, toReal_one.le, fun e he => ?_⟩
  obtain ⟨e, hmem, rfl⟩ := List.mem_map.1 he
  show (e.divReal p.growth).IsWithin (toReal 1)
  rw [toReal_one]
  exact (h.isWithin e hmem).divReal h.isFinite (one_pos.trans_le h.one_le) le_rfl

/-- A new entry is taken in, and scaled down with the others if it is large. -/
theorem extend (h : p.Covers b) {x : Complex Float} (hx : x.IsWithin c)
    (hsize : 2 * c < safeBound) {es : List (Complex Float)}
    (hes : ∀ e ∈ es, e = x ∨ e ∈ p.entries) : (p.extend es x).Covers (2 ^ 26) := by
  obtain ⟨hthreshold, hvalue⟩ := growth_threshold
  obtain ⟨hmag, -⟩ := hx.magnitude hsize
  obtain ⟨hlarger, hmax⟩ := larger_spec h.isFinite hmag
  have taken : Covers ⟨es, Arith.larger p.growth x.magnitude⟩
      (toReal (Arith.larger p.growth x.magnitude)) := by
    refine ⟨hlarger, ?_, le_rfl, fun e he => ?_⟩
    · exact hmax ▸ le_max_of_le_left h.one_le
    · show e.IsWithin (toReal (Arith.larger p.growth x.magnitude))
      rw [hmax]
      rcases hes e he with rfl | hmem
      · exact (Complex.isWithin_magnitude hmag).mono (le_max_right _ _)
      · exact (h.isWithin e hmem).mono (le_max_left _ _)
  simp only [Partial.extend]
  split
  · exact taken.scaleDown.mono (one_le_pow₀ one_le_two)
  · rename_i hnot
    rw [float_lt_iff hthreshold hlarger, hvalue, not_lt] at hnot
    exact taken.mono hnot

theorem finish (h : p.Covers b) : ∀ e ∈ p.finish, e.IsWithin 1 := by
  intro e he
  rw [Partial.finish] at he
  split at he
  · rename_i hone
    have := h.isWithin e he
    rwa [(float_beq_iff h.isFinite isFinite_one).1 hone, toReal_one] at this
  · exact (h.scaleDown.isWithin e he).mono toReal_one.le

end Covers

end Partial

/-! ## Substitution -/

/-- How much larger than the least gap the numerators of a substitution may be. -/
noncomputable def ratioBound : ℝ := ((2 : ℕ) : ℝ) ^ 1010

theorem ratioBound_eq : ratioBound = 2 ^ 1010 := by rw [ratioBound, Nat.cast_ofNat]

theorem ratioBound_pos : 0 < ratioBound := ratioBound_eq ▸ pow_pos two_pos 1010

theorem ratioBound_mul : 8192 * ratioBound = safeBound := by
  have hsplit : (2 : ℝ) ^ 1023 = 2 ^ 13 * 2 ^ 1010 := pow_add 2 13 1010
  rw [safeBound_eq, hsplit, ratioBound_eq]
  congr 1
  norm_num

theorem two_mul_quotient_lt : 2 * (2304 * ratioBound) < safeBound := by
  linarith [ratioBound_mul, ratioBound_pos]

theorem four_mul_product_lt {bound : ℝ} (hle : bound ≤ sizeBound) :
    4 * (bound * 2 ^ 26) < safeBound := by
  calc 4 * (bound * 2 ^ 26) ≤ 4 * (sizeBound * 2 ^ 26) := by gcongr
    _ = 2 ^ 28 * sizeBound := by ring
    _ < safeBound := two_pow_mul_sizeBound_lt (by decide)

namespace DenseMatrix

/-- No entry of a triangular matrix is very large, and those above the diagonal
are either small, or not too large beside each eigenvalue. -/
structure IsModest (t : DenseMatrix n n (Complex Float)) : Prop where
  within : ∀ j k, j < n → k < n → (t j k).IsWithin sizeBound
  aboveDiagonal : ∀ i < n, ∃ bound, 0 ≤ bound ∧ bound ≤ sizeBound ∧
    (∀ j k, j < k → k < n → (t j k).IsWithin bound) ∧
      (bound ≤ 2 ^ 14 ∨ n * bound ≤ sizeBound * max |toReal (t i i).re| |toReal (t i i).im|)

variable {t : DenseMatrix n n (Complex Float)}

/-- What modesty comes to, beside the least gap that is divided by. -/
theorem le_ratioBound_mul {σ least bound : ℝ}
    (hbound : bound ≤ 2 ^ 14 ∨ n * bound ≤ sizeBound * σ)
    (hcount : n * 2 ^ (-970 : ℤ) ≤ least) (hvalue : σ * 2 ^ (-53 : ℤ) ≤ least) :
    n * bound * 2 ^ 26 ≤ ratioBound * least := by
  have hn : (0 : ℝ) ≤ n := Nat.cast_nonneg n
  rcases hbound with hsmall | hbeside
  · have hpower : (2 : ℝ) ^ 14 * 2 ^ 26 = ratioBound * 2 ^ (-970 : ℤ) := by
      rw [ratioBound_eq, ← pow_add, ← zpow_natCast, ← zpow_natCast, ← zpow_add₀ two_ne_zero]
      congr 1
    calc n * bound * 2 ^ 26 ≤ n * 2 ^ 14 * 2 ^ 26 := by gcongr
      _ = ratioBound * (n * 2 ^ (-970 : ℤ)) := by
          rw [mul_assoc, hpower, mul_left_comm]
      _ ≤ ratioBound * least := mul_le_mul_of_nonneg_left hcount ratioBound_pos.le
  · have hleast : 0 ≤ least := le_trans (by positivity) hcount
    have hratio : 2 ^ 979 ≤ ratioBound := by
      rw [ratioBound_eq]
      exact pow_le_pow_right₀ one_le_two (by decide)
    have hpower : sizeBound * 2 ^ 26 = 2 ^ 979 * 2 ^ (-53 : ℤ) := by
      rw [sizeBound_eq, ← pow_add, ← zpow_natCast, ← zpow_natCast, ← zpow_add₀ two_ne_zero]
      congr 1
    calc n * bound * 2 ^ 26 ≤ sizeBound * σ * 2 ^ 26 := by gcongr
      _ = 2 ^ 979 * (σ * 2 ^ (-53 : ℤ)) := by
          rw [mul_right_comm, hpower, mul_assoc, mul_comm σ]
      _ ≤ 2 ^ 979 * least := mul_le_mul_of_nonneg_left hvalue (by positivity)
      _ ≤ ratioBound * least := mul_le_mul_of_nonneg_right hratio hleast

/-- A sum of products, as it is divided by a gap. -/
theorem quotient_isWithin {α : Type} {d s : Complex Float} {es : List α} {f : α → Complex Float}
    {bound : ℝ} (hn : 0 < n) (hsize : n < 2 ^ 53) (hd : d.IsWithin sizeBound)
    (hs : s.IsWithin sizeBound) (h0 : 0 ≤ bound) (hle : bound ≤ sizeBound)
    (hbound : bound ≤ 2 ^ 14 ∨ n * bound ≤ sizeBound * max |toReal s.re| |toReal s.im|)
    (hlen : es.length ≤ n) (hterm : ∀ e ∈ es, (f e).IsWithin (6 * (bound * 2 ^ 26))) :
    (-Arith.sumOver es f / gap n d s).IsWithin (2304 * ratioBound) := by
  obtain ⟨least, hgap, hpart, hcount, hvalue⟩ := gap_spec hn hsize hd hs
  have hn1 : (1 : ℝ) ≤ n := by exact_mod_cast hn
  have hn53 : (n : ℝ) ≤ 2 ^ 53 := by exact_mod_cast hsize.le
  have hlen' : (es.length : ℝ) ≤ n := by exact_mod_cast hlen
  obtain ⟨x, hx⟩ : ∃ x, bound * 2 ^ 26 = x := ⟨_, rfl⟩
  have hx0 : 0 ≤ x := by
    rw [← hx]
    positivity
  have hnx0 : 0 ≤ n * x := by positivity
  have hratio : n * x ≤ ratioBound * least := by
    rw [← hx, ← mul_assoc]
    exact le_ratioBound_mul hbound hcount hvalue
  have htotal : 32 * (n * x) < safeBound := by
    calc 32 * (n * x) ≤ 2 ^ 5 * (2 ^ 53 * (sizeBound * 2 ^ 26)) := by
          rw [← hx]
          have h32 : (32 : ℝ) = 2 ^ 5 := by norm_num
          rw [h32]
          gcongr
      _ = 2 ^ 84 * sizeBound := by ring
      _ < safeBound := two_pow_mul_sizeBound_lt (by decide)
  have hsum : (Arith.sumOver es f).IsWithin (12 * (n * x)) := by
    have hcover : 0 + 2 * (6 * x) * es.length ≤ 12 * (n * x) := by nlinarith
    refine (Complex.isWithin_foldl (Complex.IsWithin.zero le_rfl) (by positivity)
      (fun e he b z hz hroom => ?_) (hcover.trans_lt (by linarith))).mono hcover
    exact hz.add (hx ▸ hterm e he) hroom
  have hquarter : leastDivisor ≤ least / 4 := by
    have hpower : 4 * leastDivisor ≤ 2 ^ (-970 : ℤ) := by
      have hfour : (4 : ℝ) = 2 ^ (2 : ℤ) := by norm_num
      rw [leastDivisor_eq, hfour, ← zpow_add₀ two_ne_zero]
      exact zpow_le_zpow_right₀ one_le_two (by decide)
    have hone : (2 : ℝ) ^ (-970 : ℤ) ≤ n * 2 ^ (-970 : ℤ) :=
      le_mul_of_one_le_left (zpow_pos two_pos _).le hn1
    rw [le_div_iff₀' four_pos]
    exact hpower.trans (hone.trans hcount)
  have hleast : 0 < least / 4 := leastDivisor_pos.trans_le hquarter
  have hnumerator : 12 * (n * x) / (least / 4) ≤ 48 * ratioBound := by
    rw [div_le_iff₀ hleast]
    linarith
  have hroom := ratioBound_mul
  have hpos := ratioBound_pos
  refine (hsum.neg.div hgap (by linarith) ?_ hpart hquarter (by linarith)).mono (by linarith)
  calc 4 * (4 * sizeBound) = 2 ^ 4 * sizeBound := by ring
    _ < safeBound := two_pow_mul_sizeBound_lt (by decide)

theorem IsModest.rightStep_covers (ht : t.IsModest) (hsize : n < 2 ^ 53) {i j : Nat}
    {p : Partial Float} (hi : i < n) (hj : j < i) (hlen : p.entries.length = i - j)
    (hp : p.Covers (2 ^ 26)) : (t.rightStep i p j).Covers (2 ^ 26) := by
  obtain ⟨bound, h0, hle, hwithin, hbound⟩ := ht.aboveDiagonal i hi
  refine hp.extend (quotient_isWithin (by omega) hsize (ht.within j j (by omega) (by omega))
    (ht.within i i hi hi) h0 hle hbound (by rw [List.length_zipIdx]; omega) ?_)
    two_mul_quotient_lt fun e he => List.mem_cons.1 he
  rintro ⟨x, k⟩ hmem
  obtain ⟨hk, hk', hx⟩ := List.mem_zipIdx hmem
  have hxp : x ∈ p.entries := hx ▸ List.getElem_mem _
  exact (hwithin j k (by omega) (by omega)).mul ((hp.isWithin x hxp).mono hp.le)
    (four_mul_product_lt hle)

theorem IsModest.leftStep_covers (ht : t.IsModest) (hsize : n < 2 ^ 53) {i j : Nat}
    {p : Partial Float} (hij : i < j) (hj : j < n) (hlen : p.entries.length = j - i)
    (hp : p.Covers (2 ^ 26)) : (t.leftStep i p j).Covers (2 ^ 26) := by
  obtain ⟨bound, h0, hle, hwithin, hbound⟩ := ht.aboveDiagonal i (by omega)
  refine hp.extend (quotient_isWithin (by omega) hsize (ht.within j j hj hj)
    (ht.within i i (by omega) (by omega)) h0 hle hbound (by rw [List.length_zipIdx]; omega) ?_)
    two_mul_quotient_lt fun e he => ?_
  · rintro ⟨x, k⟩ hmem
    obtain ⟨hk, hk', hx⟩ := List.mem_zipIdx hmem
    have hxp : x ∈ p.entries := hx ▸ List.getElem_mem _
    rw [mul_comm bound]
    exact ((hp.isWithin x hxp).mono hp.le).mul (hwithin k j (by omega) hj)
      (mul_comm bound _ ▸ four_mul_product_lt hle)
  · rw [List.mem_append, List.mem_singleton] at he
    exact he.symm

/-- The right eigenvector for diagonal entry `i`, found from row `i` upward. -/
theorem IsModest.rightEigenvector_isWithin (ht : t.IsModest) (hsize : n < 2 ^ 53) {i : Nat}
    (hi : i < n) : ∀ e ∈ t.rightEigenvector i, e.IsWithin 1 := by
  have hrun : ((List.range' 0 i).reverse.foldl (t.rightStep i) .start).entries.length = i + 1 - 0 ∧
      ((List.range' 0 i).reverse.foldl (t.rightStep i) .start).Covers (2 ^ 26) := by
    refine foldl_descending (P := fun j (p : Partial Float) => p.entries.length = i + 1 - j ∧
      p.Covers (2 ^ 26)) ?_ ?_
    · exact ⟨by simp [Partial.start], Partial.Covers.start.mono (one_le_pow₀ one_le_two)⟩
    · rintro j p - hj ⟨hlen, hp⟩
      refine ⟨?_, ht.rightStep_covers hsize hi (by omega) (by omega) hp⟩
      rw [rightStep, Partial.length_extend, List.length_cons]
      omega
  rw [rightEigenvector_eq]
  exact hrun.2.finish

/-- The left eigenvector for diagonal entry `i`, found from column `i` on. -/
theorem IsModest.leftEigenvector_isWithin (ht : t.IsModest) (hsize : n < 2 ^ 53) {i : Nat}
    (hi : i < n) : ∀ e ∈ t.leftEigenvector i, e.IsWithin 1 := by
  have hrun : ((List.range' (i + 1) (n - 1 - i)).foldl (t.leftStep i) .start).entries.length
        = i + 1 + (n - 1 - i) - i ∧
      ((List.range' (i + 1) (n - 1 - i)).foldl (t.leftStep i) .start).Covers (2 ^ 26) := by
    refine foldl_ascending (P := fun j (p : Partial Float) => p.entries.length = j - i ∧
      p.Covers (2 ^ 26)) ?_ ?_
    · exact ⟨by simp [Partial.start], Partial.Covers.start.mono (one_le_pow₀ one_le_two)⟩
    · rintro j p hij hj ⟨hlen, hp⟩
      refine ⟨?_, ht.leftStep_covers hsize (by omega) (by omega) hlen hp⟩
      rw [leftStep, Partial.length_extend, List.length_append, List.length_singleton]
      omega
  rw [leftEigenvector_eq]
  exact hrun.2.finish

theorem isWithin_getD {es : List (Complex Float)} (h : ∀ e ∈ es, e.IsWithin 1) (k : Nat) :
    (es.getD k 0).IsWithin 1 := by
  rcases Nat.lt_or_ge k es.length with hk | hk
  · rw [List.getD_eq_getElem _ _ hk]
    exact h _ (List.getElem_mem hk)
  · rw [List.getD_eq_default _ _ hk]
    exact .zero zero_le_one

theorem IsModest.rightEigenvectors_isWithin (ht : t.IsModest) (hsize : n < 2 ^ 53) {i j : Nat}
    (hi : i < n) (hj : j < n) : (t.rightEigenvectors i j).IsWithin 1 := by
  rw [rightEigenvectors, apply_of_lt _ hi hj, getD_ofFn _ _ hj]
  exact isWithin_getD (ht.rightEigenvector_isWithin hsize hj) i

theorem IsModest.leftEigenvectors_isWithin (ht : t.IsModest) (hsize : n < 2 ^ 53) {i j : Nat}
    (hi : i < n) (hj : j < n) : (t.leftEigenvectors i j).IsWithin 1 := by
  rw [leftEigenvectors, apply_of_lt _ hi hj, getD_ofFn _ _ hi]
  split
  · exact isWithin_getD (ht.leftEigenvector_isWithin hsize hi) _
  · exact .zero zero_le_one

end DenseMatrix

end DenseNumeric
