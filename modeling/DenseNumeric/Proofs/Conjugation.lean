import DenseNumeric.Proofs.ZeroSigns

/-!
# Conjugation and arithmetic

To conjugate a result is to compute with conjugated operands, in every operation
and with any mix of element types. Nothing is lost to rounding, which hands
signs on. What can differ are the signs of zeros: an imaginary part that cancels
is a positive zero on either side of a conjugation, and the real types have no
imaginary part at all, where the conjugate of an element has a negative zero.
So what is carried along a computation is that both sides match.

Real parts are another matter. Conjugation leaves them alone, zeros and all, and
this is what real arithmetic needs, which may divide by them.
-/

namespace DenseNumeric

open Binary

/-! ## Numbers -/

namespace Complex

variable (z w : Complex Float)

theorem conj_add : (z + w).conj.Matches (z.conj + w.conj) :=
  ⟨.refl _, .neg_add z.im w.im⟩

theorem conj_sub : (z - w).conj.Matches (z.conj - w.conj) :=
  ⟨.refl _, .neg_sub z.im w.im⟩

/-- A zero that is left of the imaginary parts has one sign or the other. -/
example : (⟨1, 2⟩ - ⟨3, 2⟩ : Complex Float).conj ≠ ⟨1, -2⟩ - ⟨3, -2⟩ := by
  decide +kernel

theorem conj_mul : (z * w).conj.Matches (z.conj * w.conj) := by
  refine ⟨.of_eq ?_, ?_⟩
  · simp only [re_conj, im_conj, re_mul, float_neg_mul_neg]
  · simp only [re_conj, im_conj, im_mul, float_mul_neg, float_neg_mul]
    exact .neg_add _ _

theorem taxicab_conj : w.conj.taxicab = w.taxicab := by
  simp only [taxicab, re_conj, im_conj, float_abs_neg]

theorem scaled_conj : w.conj.scaled = w.scaled.conj := by
  rw [scaled, taxicab_conj, scaled]
  exact Complex.ext rfl (float_neg_div w.im w.taxicab)

theorem magnitudeSq_conj : w.conj.magnitudeSq = w.magnitudeSq := by
  simp only [magnitudeSq, re_conj, im_conj, float_neg_mul_neg]

theorem conj_div : (z / w).conj.Matches (z.conj / w.conj) := by
  rw [quotient_eq, quotient_eq, taxicab_conj, scaled_conj, magnitudeSq_conj]
  split
  · exact ⟨.refl _, .inr ⟨by decide +kernel, by decide +kernel⟩⟩
  · refine ⟨.of_eq ?_, ?_⟩
    · simp only [divReal, re_conj, im_conj, float_neg_mul_neg]
    · simp only [divReal, re_conj, im_conj, float_mul_neg, float_neg_mul, ← float_neg_div]
      exact Binary.Matches.div (.neg_sub _ _) _

end Complex

namespace BinaryOp

theorem conj_apply (op : BinaryOp) (z w : Complex Float) :
    (op.apply z w).conj.Matches (op.apply z.conj w.conj) := by
  cases op with
  | add => exact z.conj_add w
  | sub => exact z.conj_sub w
  | mul => exact z.conj_mul w
  | div => exact z.conj_div w

end BinaryOp

/-! ## Elements -/

/-- A conjugate as it is stored: the real part to the last bit, the imaginary
part but for the sign of a zero. -/
structure Complex.IsConjugate (z z' : Complex Float) : Prop where
  re : z'.re = z.re
  im : Binary.Matches (-z.im) z'.im

namespace Complex.IsConjugate

variable {z z' w w' : Complex Float}

theorem conj_matches (h : z.IsConjugate z') : z.conj.Matches z' := ⟨.of_eq h.re.symm, h.im⟩

theorem onElements (hz : z.IsConjugate z') (hw : w.IsConjugate w') (op : BinaryOp)
    (complex : Bool) :
    (op.onElements complex z w).conj.Matches (op.onElements complex z' w') := by
  cases complex with
  | true => exact (op.conj_apply z w).trans (op.apply_matches hz.conj_matches hw.conj_matches)
  | false =>
      -- a divisor may be a zero here, and is the same one
      have hre : op.apply z'.re w'.re = op.apply z.re w.re := by rw [hz.re, hw.re]
      exact ⟨.of_eq hre.symm, .neg_zero⟩

end Complex.IsConjugate

/-- One sum of products is conjugate to the other, term by term. -/
theorem dot_conj {n : Nat} {f g f' g' : Nat → Complex Float}
    (hf : ∀ p < n, (f p).IsConjugate (f' p)) (hg : ∀ p < n, (g p).IsConjugate (g' p)) :
    (dot n f g).conj.Matches (dot n f' g') := by
  refine dot_rel (r := fun s s' : Complex Float => s.conj.Matches s') ⟨.refl 0, .neg_zero⟩ ?_
  intro p hp s s' hs
  have hterm : (f p * g p).conj.Matches (f' p * g' p) :=
    ((f p).conj_mul (g p)).trans ((hf p hp).conj_matches.mul (hg p hp).conj_matches)
  exact (s.conj_add (f p * g p)).trans (hs.add hterm)

namespace DType

variable {d : DType}

theorem isInteger_eq_false (hd : d.isComplex = true) : d.isInteger = false := by
  cases d <;> first | rfl | cases hd

/-- A conjugate is stored as the conjugate of what is stored. -/
theorem isConjugate_element {z : Complex Float} (hz : d.element z = z) :
    z.IsConjugate (d.element z.conj) := by
  have hre : (d.element z).re = z.re := congrArg Complex.re hz
  refine ⟨hre, ?_⟩
  have him : (d.element z).im = z.im := congrArg Complex.im hz
  cases hd : d.isComplex with
  | false =>
      rw [im_element_of_real hd] at him
      rw [im_element_of_real hd, ← him]
      exact .neg_zero
  | true =>
      rw [im_element_of_complex hd] at him
      rw [im_element_of_complex hd, Complex.im_conj, quantize_neg (isInteger_eq_false hd), him]

/-- Numbers may be conjugated before or after they are stored. -/
theorem element_conj (d : DType) (z : Complex Float) :
    d.element (d.element z).conj = d.element z.conj := by
  refine Complex.ext (d.quantize_quantize z.re) ?_
  cases hd : d.isComplex with
  | false => rw [im_element_of_real hd, im_element_of_real hd]
  | true =>
      rw [im_element_of_complex hd, im_element_of_complex hd, Complex.im_conj, Complex.im_conj,
        im_element_of_complex hd, quantize_neg (isInteger_eq_false hd), quantize_quantize,
        quantize_neg (isInteger_eq_false hd)]

end DType

/-! ## Scalars and arrays -/

/-- The conjugate of a scalar; a real one is its own. -/
def Scalar.conj : Scalar → Scalar
  | real x => real x
  | complex z => complex z.conj

theorem Scalar.isComplex_conj (x : Scalar) : x.conj.isComplex = x.isComplex := by
  cases x <;> rfl

theorem Scalar.isConjugate_conj (x : Scalar) : x.toComplex.IsConjugate x.conj.toComplex := by
  cases x with
  | real x => exact ⟨rfl, .neg_zero⟩
  | complex z => exact ⟨rfl, .refl _⟩

namespace NumArray

variable {a b c c' : NumArray} {i j : Nat}

@[simp] theorem isComplex_conj (a : NumArray) : a.conj.isComplex = a.isComplex := rfl

theorem conj_isValid (ha : a.IsValid) : a.conj.IsValid := mapElements_isValid ha _

theorem isConjugate_entry (ha : a.IsValid) (hi : i < a.nrows) (hj : j < a.ncols) :
    (a.entry i j).IsConjugate (a.conj.entry i j) := by
  rw [conj, entry_mapElements ha Complex.conj hi hj]
  exact DType.isConjugate_element (Storage.element_loadComplex ha.storage _)

/-- Results are compared before they are stored. -/
theorem conj_matches_of_entry (hc : c.IsValid) (hshape : c'.shape = c.shape)
    (hdtype : c'.dtype = c.dtype)
    (h : ∀ i < c.nrows, ∀ j < c.ncols, ∃ z w : Complex Float, z.conj.Matches w ∧
      c.entry i j = c.dtype.element z ∧ c'.entry i j = c'.dtype.element w) :
    c.conj.Matches c' := by
  refine ⟨hshape.symm, hdtype.symm, fun i hi j hj => ?_⟩
  obtain ⟨z, w, hzw, hz, hw⟩ := h i hi j hj
  rw [conj, entry_mapElements hc Complex.conj hi hj, hz, hw, DType.element_conj, hdtype]
  exact hzw.element c.dtype

theorem combine_conj (ha : a.IsValid) (hb : b.IsValid) (hab : a.shape = b.shape)
    (op : BinaryOp) : ∃ c c', combine op a b = .ok c ∧ combine op a.conj b.conj = .ok c' ∧
      c.conj.Matches c' := by
  obtain ⟨c, hc, hshape, hdtype, hentry⟩ := exists_combine ha hb hab op
  obtain ⟨c', hc', hshape', hdtype', hentry'⟩ :=
    exists_combine (conj_isValid ha) (conj_isValid hb) hab op
  refine ⟨c, c', hc, hc', conj_matches_of_entry (combine_isValid ha hb hc)
    (hshape'.trans hshape.symm) (hdtype'.trans hdtype.symm) fun i hi j hj => ?_⟩
  rw [nrows, hshape] at hi
  rw [ncols, hshape] at hj
  have hi' : i < b.nrows := by rwa [nrows, ← hab]
  have hj' : j < b.ncols := by rwa [ncols, ← hab]
  rw [hdtype, hdtype']
  refine ⟨_, _, ?_, hentry i hi j hj, hentry' i hi j hj⟩
  exact (isConjugate_entry ha hi hj).onElements (isConjugate_entry hb hi' hj') op _

theorem combineScalar_conj (ha : a.IsValid) (op : BinaryOp) (x : Scalar) :
    (combineScalar op a x).conj.Matches (combineScalar op a.conj x.conj) := by
  have hshape : (combineScalar op a x).shape = a.shape := rfl
  have hshape' : (combineScalar op a.conj x.conj).shape = a.conj.shape := rfl
  have hdtype : (combineScalar op a x).dtype = a.dtype := rfl
  have hdtype' : (combineScalar op a.conj x.conj).dtype = a.conj.dtype := rfl
  refine conj_matches_of_entry (mapElements_isValid ha _) (hshape'.trans hshape.symm)
    (hdtype'.trans hdtype.symm) fun i hi j hj => ?_
  rw [nrows, hshape] at hi
  rw [ncols, hshape] at hj
  rw [hdtype, hdtype']
  refine ⟨_, _, ?_, entry_combineScalar ha op x hi hj,
    entry_combineScalar (conj_isValid ha) op x.conj hi hj⟩
  rw [isComplex_conj, x.isComplex_conj]
  exact (isConjugate_entry ha hi hj).onElements x.isConjugate_conj op _

theorem productEntry_conj (ha : a.IsValid) (hb : b.IsValid) {m k n : Nat}
    (hs : a.shape = .matrix m k) (hs' : b.shape = .matrix k n) (hi : i < m) (hj : j < n) :
    (a.productEntry b k i j).conj.Matches (a.conj.productEntry b.conj k i j) := by
  have hleft : ∀ p < k, (a.entry i p).IsConjugate (a.conj.entry i p) := fun p hp =>
    isConjugate_entry ha (by rwa [nrows, hs]) (by rwa [ncols, hs])
  have hright : ∀ p < k, (b.entry p j).IsConjugate (b.conj.entry p j) := fun p hp =>
    isConjugate_entry hb (by rwa [nrows, hs']) (by rwa [ncols, hs'])
  rw [productEntry, productEntry, isComplex_conj, isComplex_conj]
  split
  · exact dot_conj hleft hright
  · have hre : dot k (a.entry i · |>.re) (b.entry · j |>.re)
        = dot k (a.conj.entry i · |>.re) (b.conj.entry · j |>.re) :=
      dot_congr fun p hp => by rw [(hleft p hp).re, (hright p hp).re]
    exact ⟨.of_eq hre, .neg_zero⟩

theorem matmul_conj (ha : a.IsValid) (hb : b.IsValid) {m k n : Nat}
    (hs : a.shape = .matrix m k) (hs' : b.shape = .matrix k n) :
    ∃ c c', a.matmul b = .ok c ∧ a.conj.matmul b.conj = .ok c' ∧ c.conj.Matches c' := by
  obtain ⟨c, hc, hshape, hdtype, hentry⟩ := exists_matmul hs hs'
  obtain ⟨c', hc', hshape', hdtype', hentry'⟩ := exists_matmul (a := a.conj) (b := b.conj) hs hs'
  refine ⟨c, c', hc, hc', conj_matches_of_entry (matmul_isValid ha hb hc)
    (hshape'.trans hshape.symm) (hdtype'.trans hdtype.symm) fun i hi j hj => ?_⟩
  rw [nrows, hshape] at hi
  rw [ncols, hshape] at hj
  exact ⟨_, _, productEntry_conj ha hb hs hs' hi hj, hentry i hi j hj, hentry' i hi j hj⟩

/-- To conjugate a result is to compute with conjugated operands. -/
theorem conj_isHomomorphism (ha : a.IsValid) (hb : b.IsValid) :
    (a.shape = b.shape → ∀ op, ∃ c c', combine op a b = .ok c ∧
      combine op a.conj b.conj = .ok c' ∧ c.conj.Matches c') ∧
    (∀ op x, (combineScalar op a x).conj.Matches (combineScalar op a.conj x.conj)) ∧
    ∀ m k n, a.shape = .matrix m k → b.shape = .matrix k n →
      ∃ c c', a.matmul b = .ok c ∧ a.conj.matmul b.conj = .ok c' ∧ c.conj.Matches c' :=
  ⟨combine_conj ha hb, combineScalar_conj ha, fun _ _ _ => matmul_conj ha hb⟩

/-- Single-precision complex numbers, one undefined and one infinite. -/
def phasors : NumArray :=
  ⟨.matrix 2 2, .ofComplex #[⟨1, 2⟩, ⟨0 / 0, -3⟩, ⟨1 / 0, 0⟩, ⟨-0, 5⟩] .c64⟩

def gains : NumArray := ⟨.matrix 2 2, .ofElements #[(0.5 : Float), 0, -3, 1 / 0]⟩

theorem conj_isHomomorphism_phasors :
    (phasors.IsValid ∧ gains.IsValid ∧ phasors.shape = gains.shape) ∧
    (∃ c c', combine .div phasors gains = .ok c ∧
      combine .div phasors.conj gains.conj = .ok c' ∧ c.conj.Matches c') ∧
    (combineScalar .div phasors (.complex ⟨0, 2⟩)).conj.Matches
      (combineScalar .div phasors.conj (.complex ⟨0, -2⟩)) ∧
    ∃ c c', phasors.matmul gains = .ok c ∧ phasors.conj.matmul gains.conj = .ok c' ∧
      c.conj.Matches c' := by
  have hvalid : phasors.IsValid := isValid_mk_ofComplex (by decide) rfl .c64
  have hvalid' : gains.IsValid := isValid_mk_ofElements (by decide) rfl
  obtain ⟨hcombine, hscalar, hmatmul⟩ := conj_isHomomorphism hvalid hvalid'
  exact ⟨⟨hvalid, hvalid', rfl⟩, hcombine rfl .div, hscalar .div (.complex ⟨0, 2⟩),
    hmatmul 2 2 2 rfl rfl⟩

end NumArray

end DenseNumeric
