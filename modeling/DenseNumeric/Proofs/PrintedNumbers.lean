import Mathlib
import DenseNumeric.Decimal.Text
import DenseNumeric.Proofs.OperandSymmetry
import DenseNumeric.Proofs.UnpackedPacking

/-!
# Numbers and their texts

A number is printed as a decimal that reads back, so its text tells it from
every other number. The reals that round to a number are an interval around it
(`readsBack`), and the intervals of different numbers are disjoint: neighbours
share an end, but of two neighbours one has an odd significand and leaves its
ends out. The decimal is taken from the interval and its text has its value, so
equal texts come from one number. The other texts, those of zeros, infinities
and what is no number, are told apart by their characters.
-/

namespace DenseNumeric

open Float.Model (Format UnpackedFloat)
open Float.Model.UnpackedFloat (Sign)

namespace Decimal

/-! ## The value of a text -/

/-- The number that digits stand for, with at most one point among them. -/
def valueOfText (t : List Char) : ℚ :=
  Nat.ofDigitChars 10 (t.filter (· ≠ '.')) 0 / 10 ^ (t.dropWhile (· ≠ '.')).tail.length

theorem filter_ne_point {t : List Char} (h : '.' ∉ t) : t.filter (· ≠ '.') = t :=
  List.filter_eq_self.2 fun _ hc => decide_eq_true fun heq => h (heq ▸ hc)

theorem valueOfText_of_notMem {t : List Char} (h : '.' ∉ t) :
    valueOfText t = Nat.ofDigitChars 10 t 0 := by
  have hdrop : t.dropWhile (· ≠ '.') = [] :=
    List.dropWhile_eq_nil_iff.2 fun _ hc => decide_eq_true fun heq => h (heq ▸ hc)
  rw [valueOfText, filter_ne_point h, hdrop, List.tail_nil, List.length_nil, pow_zero, div_one]

theorem valueOfText_append_point {whole rest : List Char} (hwhole : '.' ∉ whole)
    (hrest : '.' ∉ rest) : valueOfText (whole ++ '.' :: rest)
      = Nat.ofDigitChars 10 (whole ++ rest) 0 / 10 ^ rest.length := by
  have hfilter : (whole ++ '.' :: rest).filter (· ≠ '.') = whole ++ rest := by
    rw [List.filter_append, filter_ne_point hwhole, List.filter_cons_of_neg (by decide),
      filter_ne_point hrest]
  have hdrop : (whole ++ '.' :: rest).dropWhile (· ≠ '.') = '.' :: rest := by
    rw [List.dropWhile_append_of_pos, List.dropWhile_cons_of_neg (by decide)]
    exact fun c hc => decide_eq_true fun heq => hwhole (heq ▸ hc)
  rw [valueOfText, hfilter, hdrop, List.tail_cons]

theorem point_notMem_toDigits (n : ℕ) : '.' ∉ Nat.toDigits 10 n := fun h =>
  absurd (Nat.isDigit_of_mem_toDigits (by decide) le_rfl h) (by decide)

theorem point_notMem_replicate (n : ℕ) : '.' ∉ List.replicate n '0' := fun h =>
  absurd (List.eq_of_mem_replicate h) (by decide)

/-- The point is where it has to be. -/
theorem valueOfText_positional (d : Decimal) : valueOfText d.positional = d.toRat := by
  have hdigits := point_notMem_toDigits d.digits
  rw [positional, toRat]
  split
  · next hplaces =>
      obtain ⟨k, hk⟩ : ∃ k : ℕ, d.exponent = k := Int.eq_ofNat_of_zero_le (by omega)
      rw [valueOfText_of_notMem, hk, Int.toNat_natCast, Nat.ofDigitChars_append,
        Nat.ofDigitChars_ten_toDigits, Nat.ofDigitChars_replicate_zero, zpow_natCast]
      · push_cast
        ring
      · exact List.not_mem_append hdigits (point_notMem_replicate _)
  · next hplaces =>
      obtain ⟨k, hk⟩ : ∃ k : ℕ, d.exponent = -k := ⟨(-d.exponent).toNat, by omega⟩
      rw [hk, neg_neg, Int.toNat_natCast, zpow_neg, zpow_natCast, ← div_eq_mul_inv]
      split
      · next hlength =>
          rw [valueOfText_append_point (fun h => hdigits (List.mem_of_mem_take h))
            (fun h => hdigits (List.mem_of_mem_drop h)), List.take_append_drop,
            Nat.ofDigitChars_ten_toDigits, List.length_drop, Nat.sub_sub_self (by omega)]
      · next hlength =>
          have hpoint (zeros digits : List Char) :
              '0' :: '.' :: zeros ++ digits = ['0'] ++ '.' :: (zeros ++ digits) := rfl
          rw [hpoint, valueOfText_append_point (by decide)
            (List.not_mem_append (point_notMem_replicate _) hdigits), List.singleton_append,
            Nat.ofDigitChars_cons, Nat.ofDigitChars_append, Nat.ofDigitChars_replicate_zero,
            Nat.sub_self, Nat.mul_zero, Nat.ofDigitChars_ten_toDigits,
            List.length_append, List.length_replicate, Nat.sub_add_cancel (not_lt.1 hlength)]

theorem mem_positional {d : Decimal} {c : Char} (h : c ∈ d.positional) :
    c.isDigit = true ∨ c = '.' := by
  have hdigits {c : Char} (hc : c ∈ Nat.toDigits 10 d.digits) : c.isDigit = true :=
    Nat.isDigit_of_mem_toDigits (by decide) le_rfl hc
  have hzeros {k : ℕ} {c : Char} (hc : c ∈ List.replicate k '0') : c.isDigit = true :=
    List.eq_of_mem_replicate hc ▸ rfl
  unfold positional at h
  dsimp only at h
  split at h
  · exact .inl ((List.mem_append.1 h).elim hdigits hzeros)
  · split at h
    · rcases List.mem_append.1 h with h | h
      · exact .inl (hdigits (List.mem_of_mem_take h))
      · exact (List.mem_cons.1 h).symm.imp_left fun h => hdigits (List.mem_of_mem_drop h)
    · rcases List.mem_append.1 h with h | h
      · rcases List.mem_cons.1 h with rfl | h
        · exact .inl rfl
        · exact (List.mem_cons.1 h).symm.imp_left hzeros
      · exact .inl (hdigits h)

/-! ## Intervals of decimals -/

theorem Interval.contains_iff {i : Interval} {x : ℚ} : i.contains x = true ↔
    (i.lower ≤ x ∧ x ≤ i.upper) ∧ (i.closed = false → i.lower < x ∧ x < i.upper) := by
  unfold contains
  cases i.closed with
  | true => simp
  | false =>
      simp only [Bool.false_eq_true, if_false, Bool.and_eq_true, decide_eq_true_eq,
        forall_const, iff_and_self]
      exact fun h => ⟨h.1.le, h.2.le⟩

theorem contains_readsBack (fmt : Format) (m : ℕ) (e : ℤ) :
    (readsBack fmt m e).contains (m * 2 ^ e) = true := by
  have hpow : (0 : ℚ) < 2 ^ e := zpow_pos two_pos e
  have hlower : (readsBack fmt m e).lower < m * 2 ^ e := by
    refine mul_lt_mul_of_pos_right ?_ hpow
    split <;> norm_num
  have hupper : (m * 2 ^ e : ℚ) < (readsBack fmt m e).upper :=
    mul_lt_mul_of_pos_right (by norm_num) hpow
  exact Interval.contains_iff.2 ⟨⟨hlower.le, hupper.le⟩, fun _ => ⟨hlower, hupper⟩⟩

/-- One interval ends where the other begins at the latest, and where one of
the two has no ends if they meet. -/
structure Interval.IsBefore (i j : Interval) : Prop where
  le : i.upper ≤ j.lower
  lt : i.closed = true → j.closed = true → i.upper < j.lower

theorem Interval.IsBefore.not_contains {i j : Interval} (h : i.IsBefore j) {x : ℚ}
    (hi : i.contains x = true) : ¬j.contains x = true := fun hj => by
  obtain ⟨⟨-, hupper⟩, hopen⟩ := contains_iff.1 hi
  obtain ⟨⟨hlower, -⟩, hopen'⟩ := contains_iff.1 hj
  cases hclosed : i.closed with
  | false => linarith [h.le, (hopen hclosed).2]
  | true =>
      cases hclosed' : j.closed with
      | false => linarith [h.le, (hopen' hclosed').1]
      | true => linarith [h.lt hclosed hclosed']

section

variable {fmt : Format} {m m' : ℕ} {e e' : ℤ}

/-- Neighbours with one exponent meet halfway, and one of them is odd. -/
theorem isBefore_of_lt (hlt : m < m') :
    (readsBack fmt m e).IsBefore (readsBack fmt m' e) := by
  have hpow : (0 : ℚ) < 2 ^ e := zpow_pos two_pos e
  have hlower : (m' - 1 / 2 : ℚ) * 2 ^ e ≤ (readsBack fmt m' e).lower := by
    refine mul_le_mul_of_nonneg_right ?_ hpow.le
    split <;> linarith
  constructor
  · refine (mul_le_mul_of_nonneg_right ?_ hpow.le).trans hlower
    have : (m + 1 : ℚ) ≤ m' := by exact_mod_cast hlt
    linarith
  · intro heven heven'
    have hmod : m % 2 = 0 := of_decide_eq_true heven
    have hmod' : m' % 2 = 0 := of_decide_eq_true heven'
    refine (mul_lt_mul_of_pos_right ?_ hpow).trans_le hlower
    have : (m + 2 : ℚ) ≤ m' := by exact_mod_cast (by omega : m + 2 ≤ m')
    linarith

/-- Where the exponent changes, the first number is the next power of two at
least, and the last one before it is odd. -/
theorem isBefore_of_exponent_lt (hm : 0 < m) (hm' : 0 < m') (hlog : m.log2 < fmt.mantissaBits)
    (he : fmt.minExponent ≤ e) (hcanonical : Binary.IsCanonical fmt m' e') (hlt : e < e') :
    (readsBack fmt m e).IsBefore (readsBack fmt m' e') := by
  have hpow : (0 : ℚ) < 2 ^ e := zpow_pos two_pos e
  have hbits : fmt.mantissaBits = fmt.mantissaBitsWithoutImplicit + 1 := Nat.add_comm ..
  have hsmall : m < 2 * 2 ^ fmt.mantissaBitsWithoutImplicit := by
    rw [← pow_succ', ← hbits]
    exact (Nat.log2_lt hm.ne').1 hlog
  have hlarge : 2 ^ fmt.mantissaBitsWithoutImplicit ≤ m' := by
    have hfull := (Binary.log2_add_one_of_isCanonical hcanonical).resolve_left (by omega)
    exact (Nat.le_log2 hm'.ne').1 (by omega)
  have hone : 1 ≤ 2 ^ fmt.mantissaBitsWithoutImplicit := Nat.one_le_two_pow
  generalize hp : 2 ^ fmt.mantissaBitsWithoutImplicit = p at hsmall hlarge hone
  have hbelow : (p - 1 / 4 : ℚ) * 2 ^ e' ≤ (readsBack fmt m' e').lower := by
    refine mul_le_mul_of_nonneg_right ?_ (zpow_pos two_pos e').le
    split
    · next hpower =>
        rw [hpower.1, ← hp]
        exact le_rfl
    · next hpower =>
        have hne : p ≠ m' := fun heq => hpower ⟨heq.symm.trans hp.symm, by omega⟩
        have : (p + 1 : ℚ) ≤ m' := by exact_mod_cast lt_of_le_of_ne hlarge hne
        linarith
  have hlower : (2 * p - 1 / 2 : ℚ) * 2 ^ e ≤ (readsBack fmt m' e').lower := by
    have hp1 : (1 : ℚ) ≤ p := by exact_mod_cast hone
    calc (2 * p - 1 / 2 : ℚ) * 2 ^ e = (p - 1 / 4) * 2 ^ (e + 1) := by
          rw [zpow_add_one₀ two_ne_zero]
          ring
      _ ≤ (p - 1 / 4) * 2 ^ e' := mul_le_mul_of_nonneg_left
          (zpow_le_zpow_right₀ one_le_two (by omega)) (by linarith)
      _ ≤ _ := hbelow
  constructor
  · refine (mul_le_mul_of_nonneg_right ?_ hpow.le).trans hlower
    have : (m + 1 : ℚ) ≤ 2 * p := by exact_mod_cast hsmall
    linarith
  · intro heven _
    have hmod : m % 2 = 0 := of_decide_eq_true heven
    refine (mul_lt_mul_of_pos_right ?_ hpow).trans_le hlower
    have : (m + 2 : ℚ) ≤ 2 * p := by exact_mod_cast (by omega : m + 2 ≤ 2 * p)
    linarith

/-- A real rounds to one number. -/
theorem eq_of_contains_readsBack (hm : 0 < m) (hm' : 0 < m') {x : ℚ}
    (h : m.log2 < fmt.mantissaBits ∧ fmt.minExponent ≤ e ∧ Binary.IsCanonical fmt m e)
    (h' : m'.log2 < fmt.mantissaBits ∧ fmt.minExponent ≤ e' ∧ Binary.IsCanonical fmt m' e')
    (hx : (readsBack fmt m e).contains x = true) (hx' : (readsBack fmt m' e').contains x = true) :
    m = m' ∧ e = e' := by
  rcases lt_trichotomy e e' with hlt | rfl | hgt
  · exact absurd hx' ((isBefore_of_exponent_lt hm hm' h.1 h.2.1 h'.2.2 hlt).not_contains hx)
  · rcases lt_trichotomy m m' with hlt | rfl | hgt
    · exact absurd hx' ((isBefore_of_lt hlt).not_contains hx)
    · exact ⟨rfl, rfl⟩
    · exact absurd hx ((isBefore_of_lt hgt).not_contains hx')
  · exact absurd hx ((isBefore_of_exponent_lt hm' hm h'.1 h'.2.1 h.2.2 hgt).not_contains hx')

theorem toRat_exact (m : ℕ) (e : ℤ) : (exact m e).toRat = m * 2 ^ e := by
  unfold exact toRat
  split
  · next he =>
      obtain ⟨k, rfl⟩ := Int.eq_ofNat_of_zero_le he
      simp
  · next he =>
      obtain ⟨k, rfl⟩ : ∃ k : ℕ, e = -k := ⟨(-e).toNat, by omega⟩
      have hfive : ((Nat.pow 5 k : ℕ) : ℚ) = 5 ^ k := Nat.cast_pow 5 k
      have hten : (10 : ℚ) ^ k = 5 ^ k * 2 ^ k := by rw [← mul_pow]; norm_num
      rw [neg_neg, Int.toNat_natCast, zpow_neg, zpow_neg, zpow_natCast, zpow_natCast,
        Nat.cast_mul, hfive, hten]
      field_simp

/-- What is printed reads back. -/
theorem contains_shortest (fmt : Format) (m : ℕ) (e : ℤ) :
    (readsBack fmt m e).contains (shortest fmt m e).toRat = true := by
  unfold shortest
  dsimp only
  cases hfound : (List.range 24).findSome? fun i : ℕ =>
      neighbour? (m * 2 ^ e) (readsBack fmt m e) (placeAbove m e - i) with
  | none =>
      rw [Option.getD_none, toRat_exact]
      exact contains_readsBack fmt m e
  | some d =>
      obtain ⟨i, -, hd⟩ := List.exists_of_findSome?_eq_some hfound
      unfold neighbour? at hd
      exact (List.find?_some hd :)

theorem shortest_pos (fmt : Format) (hm : 0 < m) (e : ℤ) : 0 < (shortest fmt m e).toRat := by
  have hlower : 0 < (readsBack fmt m e).lower := by
    refine mul_pos ?_ (zpow_pos two_pos e)
    have : (1 : ℚ) ≤ m := by exact_mod_cast hm
    split <;> linarith
  exact hlower.trans_le (Interval.contains_iff.1 (contains_shortest fmt m e)).1.1

end

end Decimal

namespace Binary

/-! ## The text of a number -/

variable {fmt : Format} {u v : UnpackedFloat} {c : Char}

/-- The sign of a number, zeros and infinities included. -/
def signOf : UnpackedFloat → Sign
  | .finite s _ _ _ | .infinity s | .zero s => s
  | .notANumber => .positive

/-- The sign stands before the text of the absolute value. -/
theorem text_eq (fmt : Format) (u : UnpackedFloat) :
    text fmt u = signText (signOf u) ++ text fmt u.abs := by
  cases u <;> rfl

/-- Digits, a point, and the letters of an infinity and of what is no number. -/
theorem mem_text_abs (h : c ∈ text fmt u.abs) :
    c.isDigit = true ∨ c ∈ ['.', 'N', 'a', 'i', 'n', 'f'] := by
  cases u with
  | notANumber =>
      have h : c ∈ ['N', 'a', 'N'] := h
      refine .inr ?_
      grind
  | infinity s =>
      have h : c ∈ ['i', 'n', 'f'] := h
      refine .inr ?_
      grind
  | zero s =>
      obtain rfl : c = '0' := List.mem_singleton.1 h
      exact .inl rfl
  | finite s m e hm =>
      have h : c ∈ (Decimal.shortest fmt m e).positional := h
      exact (Decimal.mem_positional h).imp_right fun hc => List.mem_cons.2 (.inl hc)

theorem signText_append_inj {s s' : Sign} {t t' : List Char} (ht : '-' ∉ t) (ht' : '-' ∉ t')
    (h : signText s ++ t = signText s' ++ t') : s = s' ∧ t = t' := by
  cases s with
  | negative =>
      cases s' with
      | negative => exact ⟨rfl, (List.cons.inj h).2⟩
      | positive =>
          have h : '-' :: t = t' := h
          exact absurd (h ▸ List.mem_cons_self) ht'
  | positive =>
      cases s' with
      | negative =>
          have h : t = '-' :: t' := h
          exact absurd (h ▸ List.mem_cons_self) ht
      | positive => exact ⟨rfl, h⟩

theorem minus_notMem_text_abs (fmt : Format) (u : UnpackedFloat) : '-' ∉ text fmt u.abs :=
  fun h => absurd (mem_text_abs h) (by decide)

/-- What is no number is known by its first letter. -/
theorem eq_notANumber_of_mem_text_abs (h : 'N' ∈ text fmt u.abs) : u = .notANumber := by
  cases u with
  | notANumber => rfl
  | infinity s =>
      have h : 'N' ∈ ['i', 'n', 'f'] := h
      exact absurd h (by decide)
  | zero s =>
      have h : 'N' ∈ ['0'] := h
      exact absurd h (by decide)
  | finite s m e hm => exact absurd (Decimal.mem_positional h) (by decide)

/-- The text of a positive number is that of numbers alone. -/
theorem exists_finite_of_text_abs {m : ℕ} {e : ℤ} (hm : 0 < m)
    (h : text fmt v.abs = (Decimal.shortest fmt m e).positional) :
    ∃ s m' e' hm', v = .finite s m' e' hm' := by
  have hchars {c : Char} (hc : c ∈ text fmt v.abs) : c.isDigit = true ∨ c = '.' := by
    rw [h] at hc
    exact Decimal.mem_positional hc
  cases v with
  | notANumber => exact absurd (hchars (c := 'N') List.mem_cons_self) (by decide)
  | infinity s => exact absurd (hchars (c := 'i') List.mem_cons_self) (by decide)
  | zero s =>
      have hvalue := congrArg Decimal.valueOfText h
      rw [Decimal.valueOfText_positional] at hvalue
      have hzero : Decimal.valueOfText (text fmt (UnpackedFloat.zero s).abs) = 0 := by
        show Decimal.valueOfText ['0'] = 0
        rw [Decimal.valueOfText_of_notMem (by decide)]
        rfl
      exact absurd (hzero.symm.trans hvalue) (Decimal.shortest_pos fmt hm e).ne
  | finite s m' e' hm' => exact ⟨s, m', e', hm', rfl⟩

theorem abs_eq_of_text_abs_eq (hu : u.isFinite = true → IsProper fmt u)
    (hv : v.isFinite = true → IsProper fmt v) (h : text fmt u.abs = text fmt v.abs) :
    u.abs = v.abs := by
  cases u with
  | finite s m e hm =>
      obtain ⟨s', m', e', hm', rfl⟩ := exists_finite_of_text_abs hm h.symm
      have hvalue : (Decimal.shortest fmt m e).toRat = (Decimal.shortest fmt m' e').toRat := by
        rw [← Decimal.valueOfText_positional, ← Decimal.valueOfText_positional]
        exact congrArg _ h
      have hcontains := Decimal.contains_shortest fmt m e
      rw [hvalue] at hcontains
      obtain ⟨rfl, rfl⟩ := Decimal.eq_of_contains_readsBack hm hm' (hu rfl) (hv rfl) hcontains
        (Decimal.contains_shortest fmt m' e')
      rfl
  | notANumber =>
      cases v with
      | finite s m e hm =>
          obtain ⟨_, _, _, _, h⟩ := exists_finite_of_text_abs hm h
          cases h
      | notANumber => rfl
      | infinity s => cases h
      | zero s => cases h
  | infinity s =>
      cases v with
      | finite s m e hm =>
          obtain ⟨_, _, _, _, h⟩ := exists_finite_of_text_abs hm h
          cases h
      | notANumber => cases h
      | infinity s' => rfl
      | zero s' => cases h
  | zero s =>
      cases v with
      | finite s m e hm =>
          obtain ⟨_, _, _, _, h⟩ := exists_finite_of_text_abs hm h
          cases h
      | notANumber => cases h
      | infinity s' => cases h
      | zero s' => rfl

theorem eq_of_signOf_abs (hsign : signOf u = signOf v) (habs : u.abs = v.abs) : u = v := by
  cases u with
  | finite s m e hm =>
      cases v with
      | finite s' m' e' hm' =>
          cases habs
          exact congrArg (UnpackedFloat.finite · m e hm) hsign
      | _ => cases habs
  | infinity s =>
      cases v with
      | infinity s' => exact congrArg UnpackedFloat.infinity hsign
      | _ => cases habs
  | zero s =>
      cases v with
      | zero s' => exact congrArg UnpackedFloat.zero hsign
      | _ => cases habs
  | notANumber =>
      cases v with
      | notANumber => rfl
      | _ => cases habs

/-- Numbers with one text are one number. -/
theorem eq_of_text_eq (hu : u.isFinite = true → IsProper fmt u)
    (hv : v.isFinite = true → IsProper fmt v) (h : text fmt u = text fmt v) : u = v := by
  rw [text_eq fmt u, text_eq fmt v] at h
  obtain ⟨hsign, habs⟩ := signText_append_inj (minus_notMem_text_abs fmt u)
    (minus_notMem_text_abs fmt v) h
  exact eq_of_signOf_abs hsign (abs_eq_of_text_abs_eq hu hv habs)

end Binary

end DenseNumeric
