import DenseNumeric.Proofs.FiniteVectors
import DenseNumeric.Proofs.ZeroSigns

/-!
# Real operands in complex arithmetic

Real arithmetic is complex arithmetic on numbers with imaginary parts of zero.
Every product with such a part is a zero and adds nothing, as long as the other
factor is finite, so sums, differences, products and sums of products come out
the same, and overflow the same way.

A quotient is another matter. The divisor is divided by its length first, which
leaves a one with its sign, and the length is divided out at the end. So what is
computed is the dividend with the sign of the divisor over the length of the
divisor: rounded once, and rounded the same.
-/

namespace DenseNumeric

namespace Binary

variable {x y : Float} {r : ℝ}

/-! ## Exact results -/

/-- A number that a double can hold is not rounded. -/
theorem Rounds.of_isNumber (h : Rounds r y) (hr : IsNumber .binary64 r) (hlt : |r| < 2 ^ 1024) :
    y.isFinite = true ∧ toReal y = r := by
  obtain ⟨r', hnearest, hcases⟩ := h
  obtain rfl : r' = r := hnearest.eq_of_isNumber hr
  rcases hcases with ⟨-, hy⟩ | ⟨hle, -⟩
  · exact hy
  · rw [overflowAt_binary64] at hle
    exact absurd hlt (not_lt.2 hle)

theorem matches_of_toReal_eq (hx : x.isFinite = true) (hy : y.isFinite = true)
    (h : toReal x = toReal y) : Matches x y :=
  .inl ((float_beq_iff hx hy).2 h)

theorem Rounds.matches_of_isFinite (h : Rounds (toReal x) y) (hx : x.isFinite = true) :
    Matches y x := by
  obtain ⟨hy, heq⟩ := h.of_isNumber (isNumber_toReal hx) (abs_toReal_lt hx)
  exact matches_of_toReal_eq hy hx heq

theorem Matches.isFinite_of_zero (h : Matches x 0) : x.isFinite = true := by
  rcases h with h | ⟨-, hnan⟩
  · exact isFinite_of_beq_zero h
  · cases hnan

theorem matches_mul_one (hx : x.isFinite = true) : Matches (x * 1) x := by
  have h := rounds_mul hx isFinite_one
  rw [toReal_one, mul_one] at h
  exact h.matches_of_isFinite hx

theorem matches_one_mul (hx : x.isFinite = true) : Matches (1 * x) x := by
  rw [float_mul_comm]
  exact matches_mul_one hx

theorem matches_zero_div (hy : y.isFinite = true) (h0 : toReal y ≠ 0) : Matches (0 / y) 0 := by
  have h := rounds_div isFinite_zero hy h0
  rw [toReal_zero, zero_div, ← toReal_zero] at h
  exact h.matches_of_isFinite isFinite_zero

theorem float_div_self (hy : y.isFinite = true) (h0 : toReal y ≠ 0) : y / y = 1 := by
  have h := rounds_div hy hy h0
  rw [div_self h0, ← toReal_one] at h
  exact (h.matches_of_isFinite isFinite_one).eq_one

/-! ## Divisors and their lengths -/

section Divisors

variable (hy : y.isFinite = true) (h0 : toReal y ≠ 0)
include hy h0

theorem toReal_abs_ne_zero : toReal (Arith.abs y) ≠ 0 := by
  rw [(abs_spec hy).2]
  exact abs_ne_zero.2 h0

/-- What is left of a divisor when its length is divided out is a one with its sign. -/
theorem div_abs_cases :
    y / Arith.abs y = 1 ∧ Arith.abs y = y ∨ y / Arith.abs y = -1 ∧ Arith.abs y = -y := by
  obtain ⟨habs, hlength⟩ := abs_spec hy
  rcases h0.lt_or_gt with hneg | hpos
  · obtain ⟨hy', hvalue⟩ := neg_spec hy
    have heq : Arith.abs y = -y := by
      refine (matches_of_toReal_eq habs hy' ?_).eq_of_ne_zero ?_
      · rw [hlength, hvalue, abs_of_neg hneg]
      · rw [hvalue]
        exact neg_ne_zero.2 h0
    exact .inr ⟨by rw [heq, float_div_neg, float_div_self hy h0], heq⟩
  · have heq : Arith.abs y = y := by
      refine (matches_of_toReal_eq habs hy ?_).eq_of_ne_zero h0
      rw [hlength, abs_of_pos hpos]
    exact .inl ⟨by rw [heq, float_div_self hy h0], heq⟩

/-- A one with the sign of the divisor puts that sign on the dividend. -/
theorem mul_sign_div_abs (hx : x.isFinite = true) :
    Matches (x * (y / Arith.abs y) / Arith.abs y) (x / y) := by
  rcases div_abs_cases hy h0 with ⟨hsign, habs⟩ | ⟨hsign, habs⟩
  · rw [hsign, habs]
    exact (matches_mul_one hx).div y
  · rw [hsign, habs, float_mul_neg, float_neg_div_neg]
    exact (matches_mul_one hx).div y

theorem isFinite_sign : (y / Arith.abs y).isFinite = true := by
  rcases div_abs_cases hy h0 with ⟨hsign, -⟩ | ⟨hsign, -⟩
  · rw [hsign]
    rfl
  · rw [hsign]
    rfl

/-- The squares of what is left of a divisor add up to one. -/
theorem sum_sq_sign {d : Float} (hd : Matches d 0) :
    y / Arith.abs y * (y / Arith.abs y) + d * d = 1 := by
  have hsq : y / Arith.abs y * (y / Arith.abs y) = 1 := by
    rcases div_abs_cases hy h0 with ⟨hsign, -⟩ | ⟨hsign, -⟩
    · rw [hsign]
      decide +kernel
    · rw [hsign]
      decide +kernel
  have hzero : Matches (d * d) 0 := .mul_zero hd.isFinite_of_zero hd
  rw [hsq]
  exact (Matches.add_zero 1 hzero).eq_one

end Divisors

end Binary

/-! ## Numbers -/

namespace Complex

open Binary

theorem ofReal_add (x y : Float) : (ofReal x + ofReal y).Matches (ofReal (x + y)) :=
  ⟨.refl _, .add_zero 0 (.refl 0)⟩

theorem ofReal_sub (x y : Float) : (ofReal x - ofReal y).Matches (ofReal (x - y)) :=
  ⟨.refl _, .sub_zero 0 (.refl 0)⟩

variable {x y : Float} (hx : x.isFinite = true) (hy : y.isFinite = true)
include hx hy

theorem ofReal_mul : (ofReal x * ofReal y).Matches (ofReal (x * y)) := by
  have hzero : Binary.Matches (0 * 0) 0 := .mul_zero rfl (.refl 0)
  have hleft : Binary.Matches (x * 0) 0 := .mul_zero hx (.refl 0)
  have hright : Binary.Matches (0 * y) 0 := .zero_mul (.refl 0) hy
  exact ⟨.sub_zero (x * y) hzero, (Binary.Matches.add_zero (x * 0) hright).trans hleft⟩

variable (h0 : toReal y ≠ 0)
include h0

omit hx in
theorem taxicab_ofReal : (ofReal y).taxicab = Arith.abs y := by
  have hzero : Binary.Matches (Arith.abs 0) 0 := by decide +kernel
  exact (Binary.Matches.add_zero _ hzero).eq_of_ne_zero (toReal_abs_ne_zero hy h0)

omit hx in
theorem scaled_ofReal : (ofReal y).scaled = ⟨y / Arith.abs y, 0 / Arith.abs y⟩ := by
  rw [scaled, taxicab_ofReal hy h0]
  rfl

omit hx in
/-- The length that was divided out of the divisor is all that is left to divide by. -/
theorem denominator_ofReal : (ofReal y).scaled.magnitudeSq * (ofReal y).taxicab = Arith.abs y := by
  have hs := (abs_spec hy).1
  have hs0 := toReal_abs_ne_zero hy h0
  rw [scaled_ofReal hy h0, taxicab_ofReal hy h0, magnitudeSq,
    sum_sq_sign hy h0 (matches_zero_div hs hs0)]
  exact (matches_one_mul hs).eq_of_ne_zero hs0

theorem ofReal_div : (ofReal x / ofReal y).Matches (ofReal (x / y)) := by
  have hs := (abs_spec hy).1
  have hs0 := toReal_abs_ne_zero hy h0
  have hd : Binary.Matches (0 / Arith.abs y) 0 := matches_zero_div hs hs0
  have hdefined : ¬((ofReal y).taxicab == 0) = true := by
    rw [taxicab_ofReal hy h0, float_beq_iff hs isFinite_zero, toReal_zero]
    exact hs0
  rw [quotient_eq, if_neg hdefined, denominator_ofReal hy h0, scaled_ofReal hy h0]
  -- what stands over the length are products with a one that has a sign, and with zeros
  constructor
  · have hre : Binary.Matches (x * (y / Arith.abs y) + 0 * (0 / Arith.abs y))
        (x * (y / Arith.abs y)) :=
      .add_zero _ (.zero_mul (.refl 0) hd.isFinite_of_zero)
    exact (hre.div _).trans (mul_sign_div_abs hy h0 hx)
  · have him : Binary.Matches (0 * (y / Arith.abs y) - x * (0 / Arith.abs y)) 0 :=
      (Binary.Matches.sub_zero _ (.mul_zero hx hd)).trans
        (.zero_mul (.refl 0) (isFinite_sign hy h0))
    exact (him.div _).trans hd

end Complex

/-- Only divisors have to be other than zero. -/
theorem BinaryOp.apply_ofReal (op : BinaryOp) {x y : Float} (hx : x.isFinite = true)
    (hy : y.isFinite = true) (h0 : op = .div → (y == 0) = false) :
    (op.apply (Complex.ofReal x) (Complex.ofReal y)).Matches (.ofReal (op.apply x y)) := by
  cases op with
  | add => exact Complex.ofReal_add x y
  | sub => exact Complex.ofReal_sub x y
  | mul => exact Complex.ofReal_mul hx hy
  | div =>
      refine Complex.ofReal_div hx hy fun hzero => ?_
      rw [← Binary.toReal_zero, ← Binary.float_beq_iff hy Binary.isFinite_zero, h0 rfl] at hzero
      cases hzero

/-- Each partial sum is the same, whether it has overflowed or not. -/
theorem dot_ofReal {n : Nat} {f g : Nat → Float} (hf : ∀ p < n, (f p).isFinite = true)
    (hg : ∀ p < n, (g p).isFinite = true) :
    (dot n (fun p => Complex.ofReal (f p)) (fun p => Complex.ofReal (g p))).Matches
      (.ofReal (dot n f g)) := by
  refine dot_rel (r := fun (z : Complex Float) s => z.Matches (.ofReal s)) (.refl 0) ?_
  intro p hp z s hs
  have hterm := Complex.ofReal_mul (hf p hp) (hg p hp)
  exact (hs.add hterm).trans (Complex.ofReal_add s (f p * g p))

/-! ## Element types -/

namespace DType

variable {d : DType}

theorem isComplex_of_isFloat (hd : d.isFloat = true) : d.isComplex = false := by
  cases d <;> first | rfl | cases hd

theorem quantize_complexCounterpart (hd : d.isFloat = true) (x : Float) :
    d.complexCounterpart.quantize x = d.quantize x := by
  cases d <;> first | rfl | cases hd

/-- Real numbers are rounded the same in the complex type. -/
theorem element_ofReal (hd : d.isFloat = true) (x : Float) :
    d.complexCounterpart.element (.ofReal x) = .ofReal (d.element (.ofReal x)).re := by
  refine Complex.ext (quantize_complexCounterpart hd x) ?_
  rw [im_element_of_complex d.isComplex_complexCounterpart]
  exact quantize_zero _

end DType

/-! ## Arrays -/

namespace NumArray

variable {a b : NumArray} {i j : Nat}

/-- The same elements, in the complex type that has them. -/
def widenToComplex (a : NumArray) : NumArray := a.astype a.dtype.complexCounterpart

/-- Complex numbers with the elements of a real array for their real parts, and
with zeros for their imaginary parts. -/
structure IsComplexForm (a c : NumArray) : Prop where
  shape : c.shape = a.shape
  dtype : c.dtype = a.dtype.complexCounterpart
  entry : ∀ i < a.nrows, ∀ j < a.ncols, (c.entry i j).Matches (.ofReal (a.entry i j).re)

theorem entry_widenToComplex (ha : a.IsValid) (hd : a.dtype.isFloat = true) (hi : i < a.nrows)
    (hj : j < a.ncols) : a.widenToComplex.entry i j = .ofReal (a.entry i j).re := by
  have hz : a.entry i j = .ofReal (a.entry i j).re :=
    Complex.ext rfl (Storage.loadComplex_im_of_real ha.storage (DType.isComplex_of_isFloat hd) _)
  have helement : a.dtype.element (a.entry i j) = a.entry i j :=
    Storage.element_loadComplex ha.storage _
  have hcast : a.widenToComplex.entry i j = a.dtype.complexCounterpart.element (a.entry i j) :=
    Storage.loadComplex_cast ha.storage _ (offset_lt_size_of_isValid ha hi hj)
  rw [hcast, hz, DType.element_ofReal hd, ← hz, helement]

theorem isFinite_re (ha : a.IsFinite) (hi : i < a.nrows) (hj : j < a.ncols) :
    (a.entry i j).re.isFinite = true :=
  (Complex.isFinite_iff.1 (ha i j hi hj)).1

@[simp] theorem dtype_widenToComplex (a : NumArray) :
    a.widenToComplex.dtype = a.dtype.complexCounterpart :=
  Storage.dtype_cast _ _

@[simp] theorem isComplex_widenToComplex (a : NumArray) : a.widenToComplex.isComplex = true := by
  rw [isComplex, dtype_widenToComplex, DType.isComplex_complexCounterpart]

/-- Results are compared before they are stored. -/
theorem isComplexForm_of_entry {c c' : NumArray} (hfloat : c.dtype.isFloat = true)
    (hshape : c'.shape = c.shape) (hdtype : c'.dtype = c.dtype.complexCounterpart)
    (h : ∀ i < c.nrows, ∀ j < c.ncols, ∃ (x : Float) (z : Complex Float), z.Matches (.ofReal x) ∧
      c.entry i j = c.dtype.element (.ofReal x) ∧ c'.entry i j = c'.dtype.element z) :
    c.IsComplexForm c' := by
  refine ⟨hshape, hdtype, fun i hi j hj => ?_⟩
  obtain ⟨x, z, hzx, hx, hz⟩ := h i hi j hj
  rw [hx, hz, hdtype, ← DType.element_ofReal hfloat]
  exact hzx.element _

section

variable (ha : a.IsValid) (hb : b.IsValid) (hfloat : a.dtype.isFloat = true)
  (hdtype : b.dtype = a.dtype) (hfinite : a.IsFinite) (hfinite' : b.IsFinite)
include ha hb hfloat hdtype hfinite hfinite'

theorem combine_widenToComplex (hab : a.shape = b.shape) (op : BinaryOp)
    (h0 : op = .div → ∀ i < b.nrows, ∀ j < b.ncols, ((b.entry i j).re == 0) = false) :
    ∃ c c', combine op a b = .ok c ∧ combine op a.widenToComplex b.widenToComplex = .ok c' ∧
      c.IsComplexForm c' := by
  have hfloat' : b.dtype.isFloat = true := hdtype ▸ hfloat
  obtain ⟨c, hc, hshape, hd, hentry⟩ := exists_combine ha hb hab op
  obtain ⟨c', hc', hshape', hd', hentry'⟩ := exists_combine (a := a.widenToComplex)
    (b := b.widenToComplex) (astype_isValid ha _) (astype_isValid hb _) hab op
  rw [isComplex, isComplex, hdtype, DType.isComplex_of_isFloat hfloat] at hentry
  rw [isComplex_widenToComplex] at hentry'
  refine ⟨c, c', hc, hc', isComplexForm_of_entry (hd ▸ hfloat) (hshape'.trans hshape.symm) ?_ ?_⟩
  · rw [hd', hd, dtype_widenToComplex]
  · intro i hi j hj
    rw [nrows, hshape] at hi
    rw [ncols, hshape] at hj
    have hi' : i < b.nrows := by rwa [nrows, ← hab]
    have hj' : j < b.ncols := by rwa [ncols, ← hab]
    rw [hd, hentry i hi j hj, hd', hentry' i hi j hj, entry_widenToComplex ha hfloat hi hj,
      entry_widenToComplex hb hfloat' hi' hj']
    exact ⟨_, _, op.apply_ofReal (isFinite_re hfinite hi hj) (isFinite_re hfinite' hi' hj')
      fun hop => h0 hop i hi' j hj', rfl, rfl⟩

theorem matmul_widenToComplex {m k n : Nat} (hs : a.shape = .matrix m k)
    (hs' : b.shape = .matrix k n) :
    ∃ c c', a.matmul b = .ok c ∧ a.widenToComplex.matmul b.widenToComplex = .ok c' ∧
      c.IsComplexForm c' := by
  have hfloat' : b.dtype.isFloat = true := hdtype ▸ hfloat
  obtain ⟨c, hc, hshape, hd, hentry⟩ := exists_matmul hs hs'
  obtain ⟨c', hc', hshape', hd', hentry'⟩ := exists_matmul (a := a.widenToComplex)
    (b := b.widenToComplex) hs hs'
  rw [hdtype, DType.promote_self] at hd
  rw [dtype_widenToComplex, dtype_widenToComplex, hdtype, DType.promote_self] at hd'
  refine ⟨c, c', hc, hc', isComplexForm_of_entry (hd ▸ hfloat) (hshape'.trans hshape.symm)
    (hd'.trans (congrArg _ hd.symm)) ?_⟩
  intro i hi j hj
  rw [nrows, hshape] at hi
  rw [ncols, hshape] at hj
  have hrow : ∀ p < k, i < a.nrows ∧ p < a.ncols := fun p hp => by
    rw [nrows, ncols, hs]
    exact ⟨hi, hp⟩
  have hcol : ∀ p < k, p < b.nrows ∧ j < b.ncols := fun p hp => by
    rw [nrows, ncols, hs']
    exact ⟨hp, hj⟩
  have hreal : a.productEntry b k i j
      = .ofReal (dot k (a.entry i · |>.re) (b.entry · j |>.re)) := by
    rw [productEntry, isComplex, isComplex, hdtype, DType.isComplex_of_isFloat hfloat]
    rfl
  have hcomplex : a.widenToComplex.productEntry b.widenToComplex k i j
      = dot k (fun p => .ofReal (a.entry i p).re) (fun p => .ofReal (b.entry p j).re) := by
    rw [productEntry, isComplex_widenToComplex]
    refine dot_congr fun p hp => ?_
    rw [entry_widenToComplex ha hfloat (hrow p hp).1 (hrow p hp).2,
      entry_widenToComplex hb hfloat' (hcol p hp).1 (hcol p hp).2]
  refine ⟨_, _, ?_, hreal ▸ hentry i hi j hj, hcomplex ▸ hentry' i hi j hj⟩
  exact dot_ofReal (fun p hp => isFinite_re hfinite (hrow p hp).1 (hrow p hp).2)
    fun p hp => isFinite_re hfinite' (hcol p hp).1 (hcol p hp).2

/-- Complex arithmetic on real numbers is real arithmetic. -/
theorem complex_arithmetic_of_reals :
    (a.shape = b.shape → ∀ op : BinaryOp,
      (op = .div → ∀ i < b.nrows, ∀ j < b.ncols, ((b.entry i j).re == 0) = false) →
      ∃ c c', combine op a b = .ok c ∧ combine op a.widenToComplex b.widenToComplex = .ok c' ∧
        c.IsComplexForm c') ∧
    ∀ m k n, a.shape = .matrix m k → b.shape = .matrix k n →
      ∃ c c', a.matmul b = .ok c ∧ a.widenToComplex.matmul b.widenToComplex = .ok c' ∧
        c.IsComplexForm c' :=
  ⟨combine_widenToComplex ha hb hfloat hdtype hfinite hfinite',
    fun _ _ _ => matmul_widenToComplex ha hb hfloat hdtype hfinite hfinite'⟩

end

/-- Numbers with squares that are out of range. -/
def largeReals : NumArray :=
  ⟨.matrix 2 2, .ofElements
    #[Float.ofBits 0x7e70000000000000, -.ofBits 0x7e70000000000000, 3, -0.5]⟩

def largeDivisors : NumArray :=
  ⟨.matrix 2 2, .ofElements #[Float.ofBits 0x7e70000000000000, 1, .ofBits 0x7e70000000000000, -7]⟩

/-- A product of these adds infinities of both signs. -/
theorem complex_arithmetic_of_reals_large :
    (largeReals.IsValid ∧ largeDivisors.IsValid ∧ largeReals.dtype.isFloat = true ∧
      largeDivisors.dtype = largeReals.dtype ∧ largeReals.IsFinite ∧ largeDivisors.IsFinite ∧
      ∀ i < 2, ∀ j < 2, ((largeDivisors.entry i j).re == 0) = false) ∧
    (∃ c c', combine .div largeReals largeDivisors = .ok c ∧
      combine .div largeReals.widenToComplex largeDivisors.widenToComplex = .ok c' ∧
      c.IsComplexForm c') ∧
    ∃ c c', largeReals.matmul largeDivisors = .ok c ∧
      largeReals.widenToComplex.matmul largeDivisors.widenToComplex = .ok c' ∧
      c.IsComplexForm c' ∧ (c.entry 0 0).re.isNaN = true := by
  have hvalid : largeReals.IsValid := isValid_mk_ofElements (by decide) rfl
  have hvalid' : largeDivisors.IsValid := isValid_mk_ofElements (by decide) rfl
  have hfin : ∀ i j : Fin 2, (largeReals.entry i j).isFinite = true ∧
      (largeDivisors.entry i j).isFinite = true := by
    decide +kernel
  have hfinite : largeReals.IsFinite := fun i j hi hj => (hfin ⟨i, hi⟩ ⟨j, hj⟩).1
  have hfinite' : largeDivisors.IsFinite := fun i j hi hj => (hfin ⟨i, hi⟩ ⟨j, hj⟩).2
  have h0 : ∀ i < 2, ∀ j < 2, ((largeDivisors.entry i j).re == 0) = false := by decide +kernel
  have hnan : ((largeReals.matmul largeDivisors).toOption.map fun c => (c.entry 0 0).re.isNaN)
      = some true := by
    decide +kernel
  have hd : largeReals.dtype = .f64 := rfl
  have hd' : largeDivisors.dtype = .f64 := rfl
  have hdtype : largeDivisors.dtype = largeReals.dtype := hd'.trans hd.symm
  obtain ⟨hcombine, hmatmul⟩ :=
    complex_arithmetic_of_reals hvalid hvalid' rfl hdtype hfinite hfinite'
  obtain ⟨c, c', hc, hc', hform⟩ := hmatmul 2 2 2 rfl rfl
  rw [hc] at hnan
  exact ⟨⟨hvalid, hvalid', rfl, hdtype, hfinite, hfinite', h0⟩, hcombine rfl .div fun _ => h0,
    c, c', hc, hc', hform, Option.some.inj hnan⟩

end NumArray

end DenseNumeric
