import DenseNumeric.NumArray.Text
import DenseNumeric.Proofs.Conjugation
import DenseNumeric.Proofs.NullParts
import DenseNumeric.Proofs.PrintedNumbers

/-!
# Complex literals

The parts of a complex number are printed one after the other, with a plus sign
between them where the imaginary part is not below zero; below zero it brings a
minus sign of its own. Two values fall between the cases. A negative zero is not
below zero and still prints its sign, so that two signs stand side by side; and
what is no number has no sign at all. For all other values the literal has one
sign, and after it the text of the size of the imaginary part.

With one sign, two, or none, the literal still tells the number: the imaginary
part begins with a sign or with the `N` of what is no number, and a real part
goes on with neither.
-/

namespace DenseNumeric

open Float.Model (UnpackedFloat)
open Float.Model.UnpackedFloat (Sign pack unpack)

namespace Binary

variable {x y : Float}

/-! ## The text of a double -/

/-- The text of a double. -/
def literal (x : Float) : List Char := text .binary64 x.toModel.unpack

theorem literal_injective : Function.Injective literal := fun _ _ h =>
  float_ext (eq_of_text_eq (isProper_unpack (by decide)) (isProper_unpack (by decide)) h)

theorem unpack_abs (x : Float) : (Arith.abs x).toModel.unpack = x.toModel.unpack.abs := by
  have habs : (Arith.abs x).toModel.unpack
      = unpack .binary64 (pack .binary64 x.toModel.unpack.abs) := rfl
  have hsign : x.toModel.unpack.abs = x.toModel.unpack
      ∨ x.toModel.unpack.abs = x.toModel.unpack.neg := by
    cases x.toModel.unpack with
    | finite s m e hm => cases s <;> first | exact .inl rfl | exact .inr rfl
    | infinity s => cases s <;> first | exact .inl rfl | exact .inr rfl
    | zero s => cases s <;> first | exact .inl rfl | exact .inr rfl
    | notANumber => exact .inl rfl
  rw [habs]
  rcases hsign with h | h
  · rw [h, pack_unpack_model]
    rfl
  · rw [h]
    exact unpack_neg x

/-- The sign stands before the text of the size. -/
theorem literal_eq (x : Float) :
    literal x = signText (signOf x.toModel.unpack) ++ literal (Arith.abs x) := by
  rw [literal, literal, unpack_abs]
  exact text_eq .binary64 x.toModel.unpack

theorem mem_literal_abs {c : Char} (h : c ∈ literal (Arith.abs x)) :
    c.isDigit = true ∨ c ∈ ['.', 'N', 'a', 'i', 'n', 'f'] := by
  rw [literal, unpack_abs] at h
  exact mem_text_abs h

theorem eq_minus_or_mem_of_mem_literal {c : Char} (h : c ∈ literal x) :
    c = '-' ∨ c ∈ literal (Arith.abs x) := by
  rw [literal_eq, List.mem_append] at h
  refine h.imp_left fun h => ?_
  cases hs : signOf x.toModel.unpack with
  | negative =>
      rw [hs] at h
      exact List.mem_singleton.1 h
  | positive =>
      rw [hs] at h
      cases h

theorem literal_of_isNaN (hx : x.isNaN = true) : literal x = ['N', 'a', 'N'] :=
  congrArg (text .binary64) (isNaN_iff.1 hx)

theorem literal_abs_of_isNaN (hx : x.isNaN = true) : literal (Arith.abs x) = ['N', 'a', 'N'] := by
  rw [literal, unpack_abs, isNaN_iff.1 hx]
  rfl

/-- All numbers with the positive sign are at least zero, and so is the
negative zero. -/
theorem zero_le_iff : 0 ≤ x ↔
    x.isNaN = false ∧ (signOf x.toModel.unpack = .positive ∨ x = -0) := by
  have hle : 0 ≤ x ↔ (UnpackedFloat.zero .positive).le x.toModel.unpack = true := decide_eq_true_iff
  have hnan : x.isNaN = x.toModel.unpack.isNaN := rfl
  have hzero : x = -0 ↔ x.toModel.unpack = .zero .negative :=
    ⟨fun h => h ▸ rfl, fun h => float_ext h⟩
  rw [hle, hnan, hzero, UnpackedFloat.le]
  cases x.toModel.unpack with
  | finite s m e hm => cases s <;> simp [UnpackedFloat.compare, signOf, UnpackedFloat.isNaN]
  | infinity s => cases s <;> simp [UnpackedFloat.compare, signOf, UnpackedFloat.isNaN]
  | zero s => cases s <;> simp [UnpackedFloat.compare, signOf, UnpackedFloat.isNaN]
  | notANumber => simp [UnpackedFloat.compare, UnpackedFloat.isNaN]

end Binary

open Binary

/-! ## The sign between the parts -/

variable {z : Complex Float} {t : List Char}

/-- The text is that of the real part, a single sign, and the text of the size
of the imaginary part, which has no sign of its own. -/
def IsSignedLiteral (t : List Char) (z : Complex Float) : Prop :=
  ∃ sign ∈ ['+', '-'],
    t = literal z.re ++ sign :: literal (Arith.abs z.im) ++ ['i'] ∧
      ∀ sign' ∈ ['+', '-'], sign' ∉ literal (Arith.abs z.im)

theorem text_of_zero_le (h : 0 ≤ z.im) :
    (Scalar.complex z).text = literal z.re ++ '+' :: literal z.im ++ ['i'] := if_pos h

theorem text_of_not_zero_le (h : ¬0 ≤ z.im) :
    (Scalar.complex z).text = literal z.re ++ literal z.im ++ ['i'] := if_neg h

/-- An undefined imaginary part stands right beside the real one. -/
theorem text_of_isNaN (h : z.im.isNaN = true) :
    (Scalar.complex z).text = literal z.re ++ ['N', 'a', 'N', 'i'] := by
  have hle : ¬0 ≤ z.im := fun hle => by
    rw [(zero_le_iff.1 hle).1] at h
    cases h
  rw [text_of_not_zero_le hle, literal_of_isNaN h, List.append_assoc]
  rfl

/-- A negative zero prints its sign after the other one. -/
theorem text_of_eq_neg_zero (h : z.im = -0) :
    (Scalar.complex z).text = literal z.re ++ ['+', '-', '0', 'i'] := by
  rw [text_of_zero_le (zero_le_iff.2 ⟨h ▸ rfl, .inr h⟩), h, List.append_assoc]
  rfl

theorem sign_notMem_literal_abs (x : Float) :
    ∀ sign ∈ ['+', '-'], sign ∉ literal (Arith.abs x) := by
  intro sign hsign hmem
  have hchars := mem_literal_abs hmem
  rcases List.mem_pair.1 hsign with rfl | rfl
  · exact absurd hchars (by decide)
  · exact absurd hchars (by decide)

theorem isSignedLiteral_text_iff :
    IsSignedLiteral (Scalar.complex z).text z ↔ z.im.isNaN = false ∧ z.im ≠ -0 := by
  constructor
  · rintro ⟨sign, -, htext, hfree⟩
    rw [List.append_assoc] at htext
    constructor
    · rw [Bool.eq_false_iff]
      intro hnan
      rw [text_of_isNaN hnan, List.append_cancel_left_eq, literal_abs_of_isNaN hnan] at htext
      exact absurd (congrArg List.length htext) (by simp)
    · intro hzero
      rw [text_of_eq_neg_zero hzero, List.append_cancel_left_eq, hzero] at htext
      exact absurd (List.cons.inj htext).2 (by decide)
  · rintro ⟨hnan, hzero⟩
    have hfree := sign_notMem_literal_abs z.im
    have him := literal_eq z.im
    by_cases hle : 0 ≤ z.im
    · refine ⟨'+', by decide, ?_, hfree⟩
      rw [(zero_le_iff.1 hle).2.resolve_right hzero] at him
      rw [text_of_zero_le hle, him]
      rfl
    · refine ⟨'-', by decide, ?_, hfree⟩
      have hsign : signOf z.im.toModel.unpack = .negative := by
        cases hsign : signOf z.im.toModel.unpack with
        | negative => rfl
        | positive => exact absurd (zero_le_iff.2 ⟨hnan, .inl hsign⟩) hle
      rw [hsign] at him
      rw [text_of_not_zero_le hle, him]
      rfl

namespace Binary

variable {c : Char}

/-! ## The parts of a literal -/

theorem mem_tail_literal (h : c ∈ (literal x).tail) : c ∈ literal (Arith.abs x) := by
  rw [literal_eq] at h
  cases hs : signOf x.toModel.unpack with
  | negative => rwa [hs] at h
  | positive =>
      rw [hs] at h
      exact List.mem_of_mem_tail h

/-- An empty text would have the value zero, and no number has it without a digit. -/
theorem literal_ne_nil (x : Float) : literal x ≠ [] := by
  rw [literal_eq, literal, unpack_abs]
  refine List.append_ne_nil_of_right_ne_nil _ fun h => ?_
  cases hu : x.toModel.unpack with
  | finite s m e hm =>
      rw [hu] at h
      have hvalue := Decimal.valueOfText_positional (Decimal.shortest .binary64 m e)
      rw [show (Decimal.shortest .binary64 m e).positional = [] from h,
        Decimal.valueOfText_of_notMem List.not_mem_nil] at hvalue
      exact absurd hvalue (Decimal.shortest_pos .binary64 hm e).ne
  | infinity s =>
      rw [hu] at h
      cases h
  | zero s =>
      rw [hu] at h
      cases h
  | notANumber =>
      rw [hu] at h
      cases h

theorem isNaN_of_mem_literal (h : 'N' ∈ literal x) : x.isNaN = true := by
  have habs := (eq_minus_or_mem_of_mem_literal h).resolve_left (by decide)
  rw [literal, unpack_abs] at habs
  exact isNaN_iff.2 (eq_notANumber_of_mem_text_abs habs)

/-- How the text of an imaginary part may begin. -/
def beginnings : List Char := ['+', '-', 'N']

/-- A number does not go on with the beginning of another part. -/
theorem literal_ne_append_cons (hc : c ∈ beginnings) : literal y ≠ literal x ++ c :: t := by
  intro h
  obtain ⟨d, u, hx⟩ := List.exists_cons_of_ne_nil (literal_ne_nil x)
  have hmem : c ∈ literal (Arith.abs y) := mem_tail_literal (by
    rw [h, hx]
    exact List.mem_append_right _ List.mem_cons_self)
  have hN : c = 'N' := by
    have hchars := mem_literal_abs hmem
    rcases List.mem_cons.1 hc with rfl | hc
    · exact absurd hchars (by decide)
    · rcases List.mem_pair.1 hc with rfl | rfl
      · exact absurd hchars (by decide)
      · rfl
  -- so the longer text is that of what is no number, and the shorter one too
  have hy : y.isNaN = true := isNaN_of_mem_literal (by
    rw [h, hN]
    exact List.mem_append_right _ List.mem_cons_self)
  rw [literal_of_isNaN hy] at h
  have hx : x.isNaN = true := isNaN_of_mem_literal (by
    rw [hx] at h ⊢
    obtain rfl := (List.cons.inj h).1
    exact List.mem_cons_self)
  rw [literal_of_isNaN hx] at h
  exact absurd (congrArg List.length h) (by simp)

/-- The text of an imaginary part, with the sign before it and the unit after it. -/
def imaginary (x : Float) : List Char :=
  if 0 ≤ x then '+' :: literal x ++ ['i'] else literal x ++ ['i']

theorem text_complex (z : Complex Float) :
    (Scalar.complex z).text = literal z.re ++ imaginary z.im := by
  unfold imaginary
  split
  · next h => rw [text_of_zero_le h, List.append_assoc]
  · next h => rw [text_of_not_zero_le h, List.append_assoc]

theorem plus_notMem_literal (x : Float) : '+' ∉ literal x := fun h =>
  absurd (mem_literal_abs ((eq_minus_or_mem_of_mem_literal h).resolve_left (by decide)))
    (by decide)

theorem exists_imaginary_eq (x : Float) : ∃ c ∈ beginnings, ∃ t, imaginary x = c :: t := by
  unfold imaginary
  split
  · exact ⟨'+', by decide, _, rfl⟩
  · next hx =>
      rw [literal_eq]
      cases hnan : x.isNaN with
      | true =>
          rw [literal_abs_of_isNaN hnan, isNaN_iff.1 hnan]
          exact ⟨'N', by decide, _, rfl⟩
      | false =>
          cases hs : signOf x.toModel.unpack with
          | negative => exact ⟨'-', by decide, _, rfl⟩
          | positive => exact absurd (zero_le_iff.2 ⟨hnan, .inl hs⟩) hx

theorem imaginary_injective : Function.Injective imaginary := fun x y h => by
  have hplus {x y : Float} : literal x ++ ['i'] ≠ '+' :: literal y ++ ['i'] := fun h =>
    plus_notMem_literal x (by
      have := List.append_cancel_right h
      exact this ▸ List.mem_cons_self)
  unfold imaginary at h
  split at h
  · split at h
    · exact literal_injective (List.append_cancel_right (List.cons.inj h).2)
    · exact absurd h.symm hplus
  · split at h
    · exact absurd h hplus
    · exact literal_injective (List.append_cancel_right h)

end Binary

/-- A complex number is known from its literal. -/
theorem complex_text_injective {z w : Complex Float}
    (h : (Scalar.complex z).text = (Scalar.complex w).text) : z = w := by
  rw [text_complex, text_complex] at h
  have hshorter {x y x' y' : Float} {t : List Char} (ht : literal y = literal x ++ t)
      (him : imaginary x' = t ++ imaginary y') : t = [] := by
    cases t with
    | nil => rfl
    | cons c t =>
        obtain ⟨d, hd, u, hu⟩ := exists_imaginary_eq x'
        rw [hu] at him
        obtain rfl := (List.cons.inj him).1
        exact absurd ht (literal_ne_append_cons hd)
  rcases List.append_eq_append_iff.1 h with ⟨t, ht, him⟩ | ⟨t, ht, him⟩
  · obtain rfl := hshorter ht him
    rw [List.append_nil] at ht
    exact Complex.ext (literal_injective ht.symm) (imaginary_injective him)
  · obtain rfl := hshorter ht him
    rw [List.append_nil] at ht
    exact Complex.ext (literal_injective ht) (imaginary_injective him.symm)

/-! ## Arrays -/

namespace NumArray

variable {a : NumArray} {i j : Nat}

/-- The text of an element, as it stands in the text of the array. -/
def elementText (a : NumArray) (i j : Nat) : List Char :=
  (a.storage.load (a.shape.offset i j)).text

theorem elementText_of_complex (ha : a.IsValid) (hc : a.dtype.isComplex = true) (i j : Nat) :
    a.elementText i j = (Scalar.complex (a.entry i j)).text := by
  have hload : a.storage.load (a.shape.offset i j) = .complex (a.entry i j) :=
    if_pos (ha.storage.isSome_im.trans hc)
  rw [elementText, hload]

/-- An element that is negated part by part, or in one part, is stored as it is. -/
theorem element_of_signs {d : DType} (hd : d.isComplex = true) {z w : Complex Float}
    (hz : d.element z = z) (hre : w.re = z.re ∨ w.re = -z.re) (him : w.im = z.im ∨ w.im = -z.im) :
    d.element w = w := by
  have hpart {x y : Float} (hx : d.quantize x = x) (hy : y = x ∨ y = -x) : d.quantize y = y := by
    rcases hy with rfl | rfl
    · exact hx
    · rw [DType.quantize_neg (DType.isInteger_eq_false hd), hx]
  refine Complex.ext (hpart (congrArg Complex.re hz) hre) ?_
  rw [DType.im_element_of_complex hd]
  refine hpart ?_ him
  rw [← DType.im_element_of_complex hd, hz]

theorem entry_conj (ha : a.IsValid) (hc : a.dtype.isComplex = true) (hi : i < a.nrows)
    (hj : j < a.ncols) : a.conj.entry i j = (a.entry i j).conj := by
  rw [conj, entry_mapElements ha Complex.conj hi hj]
  exact element_of_signs hc (Storage.element_loadComplex ha.storage _) (.inl rfl) (.inr rfl)

theorem entry_neg (ha : a.IsValid) (hc : a.dtype.isComplex = true) (hi : i < a.nrows)
    (hj : j < a.ncols) : a.neg.entry i j = -a.entry i j := by
  rw [neg, entry_mapElements ha _ hi hj]
  exact element_of_signs hc (Storage.element_loadComplex ha.storage _) (.inr rfl) (.inr rfl)

theorem neg_im_iff {x : Float} : (-x).isNaN = false ∧ -x ≠ -0 ↔ x.isNaN = false ∧ x ≠ 0 := by
  have hnan : (-x).isNaN = x.isNaN :=
    Bool.eq_iff_iff.2 ⟨fun h => float_neg_neg x ▸ isNaN_neg h, isNaN_neg⟩
  have hzero : -x = -0 ↔ x = 0 :=
    ⟨fun h => by rw [← float_neg_neg x, h, float_neg_neg], congrArg _⟩
  rw [hnan, Ne, hzero]

/-- Which elements are printed with one sign: those whose imaginary part is a
number, and not the negative zero. So it takes a positive zero to begin with for
a negated array, or a conjugate, to be printed with two of them. -/
theorem isSignedLiteral_elementText_iff (ha : a.IsValid) (hc : a.dtype.isComplex = true)
    (hi : i < a.nrows) (hj : j < a.ncols) :
    (IsSignedLiteral (a.elementText i j) (a.entry i j) ↔
        (a.entry i j).im.isNaN = false ∧ (a.entry i j).im ≠ -0)
      ∧ (IsSignedLiteral (a.conj.elementText i j) (a.conj.entry i j) ↔
        (a.entry i j).im.isNaN = false ∧ (a.entry i j).im ≠ 0)
      ∧ (IsSignedLiteral (a.neg.elementText i j) (a.neg.entry i j) ↔
        (a.entry i j).im.isNaN = false ∧ (a.entry i j).im ≠ 0)
      ∧ ((a.entry i j).im.isNaN = true →
        a.elementText i j = literal (a.entry i j).re ++ ['N', 'a', 'N', 'i'])
      ∧ ((a.entry i j).im = -0 →
        a.elementText i j = literal (a.entry i j).re ++ ['+', '-', '0', 'i']) := by
  have hconj := elementText_of_complex (a := a.conj) (conj_isValid ha) hc i j
  have hneg := elementText_of_complex (a := a.neg) (mapElements_isValid ha _) hc i j
  rw [elementText_of_complex ha hc, hconj, hneg]
  refine ⟨isSignedLiteral_text_iff, ?_, ?_, text_of_isNaN, text_of_eq_neg_zero⟩
  · rw [isSignedLiteral_text_iff, entry_conj ha hc hi hj, Complex.im_conj, neg_im_iff]
  · rw [isSignedLiteral_text_iff, entry_neg ha hc hi hj, Complex.im_neg, neg_im_iff]

/-- A complex array of one zero. -/
def loneZero : NumArray := ⟨.vector 1, .zeros 1 .c128⟩

theorem loneZero_isValid : loneZero.IsValid :=
  zeros_isValid (show zeros [1] .c128 = .ok loneZero from rfl)

theorem isSignedLiteral_elementText_iff_loneZero :
    IsSignedLiteral (loneZero.elementText 0 0) (loneZero.entry 0 0)
      ∧ ¬IsSignedLiteral (loneZero.conj.elementText 0 0) (loneZero.conj.entry 0 0) := by
  have h := isSignedLiteral_elementText_iff (i := 0) (j := 0) loneZero_isValid rfl (by decide)
    (by decide)
  exact ⟨h.1.2 (by decide), fun hconj => (h.2.1.1 hconj).2 rfl⟩

/-- The conjugate of zero, as it is printed. -/
theorem text_conj_loneZero :
    loneZero.conj.text = "[0+-0i] dtype=c128".toList
      ∧ ¬IsSignedLiteral (loneZero.conj.elementText 0 0) (loneZero.conj.entry 0 0) := by
  refine ⟨by decide +kernel, ?_⟩
  rintro ⟨sign, hsign, htext, -⟩
  rcases List.mem_pair.1 hsign with rfl | rfl
  · exact absurd htext (by decide +kernel)
  · exact absurd htext (by decide +kernel)

end NumArray

end DenseNumeric
