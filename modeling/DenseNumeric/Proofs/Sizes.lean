import Mathlib
import DenseNumeric.Proofs.NullParts

/-!
# Sizes

Absolute values and lengths are not below zero, but they may be infinite, and
undefined (`IsSize`). The two ways in which norms put sizes together differ in
what they do with the undefined ones. A sum is undefined as soon as one of its
terms is, and for no other reason: infinities of different sign cannot meet in
it. A largest one is never undefined: every comparison with an undefined number
fails, so that it is passed over, wherever it stands and whatever follows.
-/

namespace DenseNumeric

namespace Binary

open Float.Model (UnpackedFloat)
open Float.Model.UnpackedFloat (pack unpack)

variable {x y : Float} {c : ℝ}

/-! ## Comparisons -/

theorem le_iff_lt_or_beq : x ≤ y ↔ x < y ∨ (x == y) = true := by
  have hle : x ≤ y ↔ x.toModel.unpack.le y.toModel.unpack = true := decide_eq_true_iff
  have hbeq : (x == y) = x.toModel.unpack.beq y.toModel.unpack := rfl
  rw [hle, lt_iff_lt_unpack, hbeq, UnpackedFloat.le, UnpackedFloat.lt, UnpackedFloat.beq]
  cases x.toModel.unpack.compare y.toModel.unpack with
  | none => simp
  | some o => cases o <;> simp

theorem float_le_iff (hx : x.isFinite = true) (hy : y.isFinite = true) :
    x ≤ y ↔ toReal x ≤ toReal y := by
  rw [le_iff_lt_or_beq, float_lt_iff hx hy, float_beq_iff hx hy, le_iff_lt_or_eq]

theorem beq_self_iff : (x == x) = true ↔ x.isNaN = false := by
  rw [← Bool.not_eq_true, isNaN_iff]
  refine ⟨fun h hnan => ?_, fun h => beq_self_of_ne h⟩
  have h : x.toModel.unpack.beq x.toModel.unpack = true := h
  rw [hnan] at h
  cases h

theorem not_lt_of_isNaN (hy : y.isNaN = true) : ¬x < y := by
  rw [lt_iff_lt_unpack, isNaN_iff.1 hy]
  cases x.toModel.unpack <;> exact Bool.false_ne_true

theorem not_lt_of_unpack_positive (hx : x.toModel.unpack = .infinity .positive) : ¬x < y := by
  rw [lt_iff_lt_unpack, hx]
  cases y.toModel.unpack with
  | infinity s => cases s <;> exact Bool.false_ne_true
  | _ => exact Bool.false_ne_true

theorem not_lt_of_unpack_negative (hy : y.toModel.unpack = .infinity .negative) : ¬x < y := by
  rw [lt_iff_lt_unpack, hy]
  cases x.toModel.unpack with
  | infinity s => cases s <;> exact Bool.false_ne_true
  | _ => exact Bool.false_ne_true

namespace Reaches

theorem isNaN_eq_false (h : Reaches x c) : x.isNaN = false := by
  rw [← Bool.not_eq_true]
  intro hnan
  rcases h with ⟨hx, -⟩ | hinf
  · exact not_isFinite_of_isNaN hnan hx
  · rw [isNaN_iff.1 hnan] at hinf
    cases hinf

theorem toReal_le (h : Reaches x c) (hx : x.isFinite = true) : c ≤ toReal x := by
  rcases h with ⟨-, hle⟩ | hinf
  · exact hle
  · exact absurd hx (not_isFinite_of_isInf (congrArg UnpackedFloat.isInf hinf))

/-- Two numbers that are not below zero are ordered as their lower bounds. -/
theorem le_of_forall (hx : Reaches x 0) (h : ∀ c, Reaches x c → Reaches y c) : x ≤ y := by
  rcases hx with ⟨hx, -⟩ | hinf
  · rcases h (toReal x) (.inl ⟨hx, le_rfl⟩) with ⟨hy, hle⟩ | hyinf
    · exact (float_le_iff hx hy).2 hle
    · exact le_iff_lt_or_beq.2 (.inl (lt_of_unpack_infinity hx hyinf))
  · have hy : y.toModel.unpack = .infinity .positive := by
      rcases h (toReal y + 1) (.inr hinf) with ⟨-, hle⟩ | hyinf
      · linarith
      · exact hyinf
    have hbeq : (x == y) = x.toModel.unpack.beq y.toModel.unpack := rfl
    rw [le_iff_lt_or_beq, hbeq, hinf, hy]
    exact .inr rfl

theorem of_lt (h : Reaches x c) (hxy : x < y) : Reaches y c := by
  rcases isNaN_or_isFinite_or_isInf y with hnan | hy | hinf
  · exact absurd hxy (not_lt_of_isNaN hnan)
  · rcases h with ⟨hx, hle⟩ | hx
    · exact .inl ⟨hy, hle.trans ((float_lt_iff hx hy).1 hxy).le⟩
    · exact absurd hxy (not_lt_of_unpack_positive hx)
  · obtain ⟨s, hu⟩ := exists_unpack_of_isInf hinf
    cases s with
    | positive => exact .inr hu
    | negative => exact absurd hxy (not_lt_of_unpack_negative hu)

/-! ## The larger of two numbers -/

theorem larger_left (h : Reaches x c) (y : Float) : Reaches (Arith.larger x y) c := by
  unfold Arith.larger
  split
  · next hlt => exact h.of_lt hlt
  · rw [if_pos (beq_self_iff.2 h.isNaN_eq_false)]
    exact h

theorem larger_right (hx : Reaches x 0) (hy : Reaches y c) : Reaches (Arith.larger x y) c := by
  unfold Arith.larger
  split
  · exact hy
  · next hlt =>
      rw [if_pos (beq_self_iff.2 hx.isNaN_eq_false)]
      exact hx.of_not_lt hy hlt

theorem larger_of_isNaN (hx : Reaches x c) (hy : y.isNaN = true) : Arith.larger x y = x := by
  rw [Arith.larger, if_neg (not_lt_of_isNaN hy), if_pos (beq_self_iff.2 hx.isNaN_eq_false)]

end Reaches

/-! ## Sizes -/

/-- Undefined, or not below zero. -/
def IsSize (x : Float) : Prop := x.isNaN = true ∨ Reaches x 0

theorem IsSize.reaches (h : IsSize x) (hx : x.isNaN = false) : Reaches x 0 :=
  h.resolve_left (Bool.eq_false_iff.1 hx)

theorem IsSize.unpack_of_isInf (h : IsSize x) (hx : x.isInf = true) :
    x.toModel.unpack = .infinity .positive := by
  rcases h with hnan | ⟨hfinite, -⟩ | hinf
  · have hx : x.toModel.unpack.isInf = true := hx
    rw [isNaN_iff.1 hnan] at hx
    cases hx
  · exact absurd hfinite (not_isFinite_of_isInf hx)
  · exact hinf

theorem isNaN_abs (hx : x.isNaN = true) : (Arith.abs x).isNaN = true := by
  refine isNaN_of_unpacked (u := x.toModel.unpack.abs) ?_
  rw [isNaN_iff.1 hx]
  rfl

theorem unpack_abs_of_isInf (hx : x.isInf = true) :
    (Arith.abs x).toModel.unpack = .infinity .positive := by
  obtain ⟨s, hu⟩ := exists_unpack_of_isInf hx
  have habs : (Arith.abs x).toModel.unpack
      = unpack .binary64 (pack .binary64 x.toModel.unpack.abs) := rfl
  refine unpack_pack_infinity habs ?_
  rw [hu]
  rfl

theorem reaches_abs (hx : x.isNaN = false) : Reaches (Arith.abs x) 0 := by
  rcases isFinite_or_isInf hx with hfinite | hinf
  · exact (reaches_abs_of_isFinite hfinite).mono (abs_nonneg _)
  · exact .inr (unpack_abs_of_isInf hinf)

theorem isSize_abs (x : Float) : IsSize (Arith.abs x) := by
  cases hx : x.isNaN with
  | true => exact .inl (isNaN_abs hx)
  | false => exact .inr (reaches_abs hx)

/-! ## Sums of sizes -/

theorem IsSize.add (hx : IsSize x) (hy : IsSize y) : IsSize (x + y) := by
  rcases hx with hx | hx
  · exact .inl (isNaN_add_left hx y)
  · rcases hy with hy | hy
    · exact .inl (isNaN_add_right x hy)
    · exact .inr (hx.add hy)

theorem IsSize.isNaN_add_iff (hx : IsSize x) (hy : IsSize y) :
    (x + y).isNaN = true ↔ x.isNaN = true ∨ y.isNaN = true := by
  refine ⟨fun h => ?_, fun h => h.elim (isNaN_add_left · y) (isNaN_add_right x)⟩
  by_contra hnone
  rw [not_or, Bool.not_eq_true, Bool.not_eq_true] at hnone
  have hsum := (hx.reaches hnone.1).add (hy.reaches hnone.2)
  rw [hsum.isNaN_eq_false] at h
  cases h

variable {α : Type} {xs : List α} {f : α → Float}

theorem isNaN_foldl_add_iff (hf : ∀ a ∈ xs, IsSize (f a)) (hx : IsSize x) :
    IsSize (xs.foldl (fun acc a => acc + f a) x)
      ∧ ((xs.foldl (fun acc a => acc + f a) x).isNaN = true
        ↔ x.isNaN = true ∨ ∃ a ∈ xs, (f a).isNaN = true) := by
  induction xs generalizing x with
  | nil => simpa using hx
  | cons a xs ih =>
      rw [List.forall_mem_cons] at hf
      obtain ⟨hsize, hiff⟩ := ih hf.2 (hx.add hf.1)
      refine ⟨hsize, hiff.trans ?_⟩
      simp only [hx.isNaN_add_iff hf.1, List.mem_cons, exists_eq_or_imp, or_assoc]

theorem isSize_zero : IsSize 0 := .inr reaches_zero

theorem isSize_sumOver (hf : ∀ a ∈ xs, IsSize (f a)) : IsSize (Arith.sumOver xs f) :=
  (isNaN_foldl_add_iff hf isSize_zero).1

theorem isNaN_sumOver_iff (hf : ∀ a ∈ xs, IsSize (f a)) :
    (Arith.sumOver xs f).isNaN = true ↔ ∃ a ∈ xs, (f a).isNaN = true :=
  (isNaN_foldl_add_iff hf isSize_zero).2.trans (or_iff_right nofun)

/-- A sum is not below any of its terms, as rounding does not go past a number. -/
theorem reaches_sumOver (hf : ∀ a ∈ xs, Reaches (f a) 0) {a : α} (ha : a ∈ xs)
    (hc : IsNumber .binary64 c) (hc0 : 0 ≤ c) (h : Reaches (f a) c) :
    Reaches (Arith.sumOver xs f) c := by
  obtain ⟨ys, zs, rfl⟩ := List.append_of_mem ha
  rw [List.forall_mem_append, List.forall_mem_cons] at hf
  have hstart : Reaches (ys.foldl (fun acc a => acc + f a) 0) 0 :=
    List.foldlRecOn (motive := fun x => Reaches x 0) ys _ reaches_zero
      fun _ hx b hb => hx.add (hf.1 b hb)
  rw [Arith.sumOver, List.foldl_append, List.foldl_cons]
  refine List.foldlRecOn (motive := fun x => Reaches x c) zs _ ?_ fun _ hx b hb => ?_
  · exact hstart.add_of_isNumber h hc hc0 (by linarith)
  · exact hx.add_of_isNumber (hf.2.2 b hb) hc hc0 (by linarith)

/-! ## The largest of sizes -/

theorem reaches_foldl_larger (h : Reaches x c) (xs : List α) (f : α → Float) :
    Reaches (xs.foldl (fun acc a => Arith.larger acc (f a)) x) c :=
  List.foldlRecOn (motive := fun x => Reaches x c) xs _ h fun _ hx a _ => hx.larger_left (f a)

/-- It is defined, whatever the numbers are. -/
theorem reaches_largestOver (xs : List α) (f : α → Float) : Reaches (Arith.largestOver xs f) 0 :=
  reaches_foldl_larger reaches_zero xs f

theorem reaches_largestOver_of_mem {a : α} (ha : a ∈ xs) (h : Reaches (f a) c) :
    Reaches (Arith.largestOver xs f) c := by
  obtain ⟨ys, zs, rfl⟩ := List.append_of_mem ha
  rw [Arith.largestOver, List.foldl_append, List.foldl_cons]
  exact reaches_foldl_larger ((reaches_largestOver ys f).larger_right h) zs f

/-- Undefined numbers might as well not be there. -/
theorem largestOver_filter_isNaN (xs : List α) (f : α → Float) :
    Arith.largestOver (xs.filter fun a => !(f a).isNaN) f = Arith.largestOver xs f := by
  have hrel : ∀ x, Reaches x 0 →
      (xs.filter fun a => !(f a).isNaN).foldl (fun acc a => Arith.larger acc (f a)) x
        = xs.foldl (fun acc a => Arith.larger acc (f a)) x := by
    induction xs with
    | nil => exact fun _ _ => rfl
    | cons a xs ih =>
        intro x hx
        cases ha : (f a).isNaN with
        | true =>
            rw [List.filter_cons_of_neg (by rw [ha]; decide), List.foldl_cons,
              hx.larger_of_isNaN ha]
            exact ih x hx
        | false =>
            rw [List.filter_cons_of_pos (by rw [ha]; decide), List.foldl_cons, List.foldl_cons]
            exact ih _ (hx.larger_left _)
  exact hrel 0 reaches_zero

end Binary

/-! ## What a largest number is -/

namespace Arith

variable {R : Type} [Arith R] {α : Type}

theorem larger_eq_or (x y : R) : larger x y = x ∨ larger x y = y := by
  unfold larger
  split
  · exact .inr rfl
  · split
    · exact .inl rfl
    · exact .inr rfl

theorem largestOver_eq_zero_or (xs : List α) (f : α → R) :
    largestOver xs f = 0 ∨ ∃ a ∈ xs, largestOver xs f = f a := by
  refine List.foldlRecOn (motive := fun x => x = 0 ∨ ∃ a ∈ xs, x = f a) xs _ (.inl rfl) ?_
  intro x hx a ha
  rcases larger_eq_or x (f a) with h | h <;> rw [h]
  · exact hx
  · exact .inr ⟨a, ha, rfl⟩

end Arith

namespace Binary

variable {α : Type} {xs : List α} {f : α → Float}

/-- A largest size is out of range only if one of the sizes is. -/
theorem isFinite_largestOver_iff (hf : ∀ a ∈ xs, IsSize (f a)) :
    (Arith.largestOver xs f).isFinite = false ↔ ∃ a ∈ xs, (f a).isInf = true := by
  have hreaches := reaches_largestOver xs f
  constructor
  · intro h
    rcases Arith.largestOver_eq_zero_or xs f with hzero | ⟨a, ha, heq⟩
    · rw [hzero] at h
      cases h
    · refine ⟨a, ha, ?_⟩
      rw [heq] at h hreaches
      rcases isFinite_or_isInf hreaches.isNaN_eq_false with hfinite | hinf
      · exact absurd hfinite (Bool.eq_false_iff.1 h)
      · exact hinf
  · rintro ⟨a, ha, hinf⟩
    rw [← Bool.not_eq_true]
    intro hfinite
    have habove : Reaches (Arith.largestOver xs f) (toReal (Arith.largestOver xs f) + 1) :=
      reaches_largestOver_of_mem ha (.inr ((hf a ha).unpack_of_isInf hinf))
    linarith [habove.toReal_le hfinite]

end Binary

/-! ## Lengths of complex numbers -/

namespace Complex

open Binary
open Float.Model (UnpackedFloat)
open Float.Model.UnpackedFloat (pack unpack)

variable {z : Complex Float}

/-- One of the parts is undefined. -/
def HasNaN (z : Complex Float) : Prop := z.re.isNaN = true ∨ z.im.isNaN = true

/-- One of the parts is infinite. -/
def HasInfinity (z : Complex Float) : Prop := z.re.isInf = true ∨ z.im.isInf = true

theorem unpack_magnitude (z : Complex Float) : z.magnitude.toModel.unpack = unpack .binary64
    (pack .binary64 (hypot .binary64 z.re.toModel.unpack z.im.toModel.unpack)) := rfl

theorem unpack_magnitude_of_hasInfinity (h : z.HasInfinity) :
    z.magnitude.toModel.unpack = .infinity .positive := by
  refine unpack_pack_infinity (unpack_magnitude z) ?_
  rcases h with hre | him
  · obtain ⟨s, hu⟩ := exists_unpack_of_isInf hre
    rw [hu]
    rfl
  · obtain ⟨s, hu⟩ := exists_unpack_of_isInf him
    rw [hu]
    cases z.re.toModel.unpack <;> rfl

/-- An infinite part decides, an undefined one only beside a finite one. -/
theorem isNaN_magnitude (h : z.HasNaN) (hinf : ¬z.HasInfinity) : z.magnitude.isNaN = true := by
  refine isNaN_of_unpacked
    (u := hypot .binary64 z.re.toModel.unpack z.im.toModel.unpack) ?_
  have hre : z.re.toModel.unpack.isInf ≠ true := fun h => hinf (.inl h)
  have him : z.im.toModel.unpack.isInf ≠ true := fun h => hinf (.inr h)
  rcases h with hnan | hnan
  · rw [isNaN_iff.1 hnan]
    cases hu : z.im.toModel.unpack <;> first
      | rfl
      | exact absurd (congrArg UnpackedFloat.isInf hu) him
  · rw [isNaN_iff.1 hnan]
    cases hu : z.re.toModel.unpack <;> first
      | rfl
      | exact absurd (congrArg UnpackedFloat.isInf hu) hre

theorem isFinite_of_not (hnan : ¬z.HasNaN) (hinf : ¬z.HasInfinity) : z.isFinite = true := by
  rw [HasNaN, not_or] at hnan
  rw [HasInfinity, not_or] at hinf
  have hre := (isNaN_or_isFinite_or_isInf z.re).resolve_left hnan.1
  have him := (isNaN_or_isFinite_or_isInf z.im).resolve_left hnan.2
  exact isFinite_iff.2 ⟨hre.resolve_right hinf.1, him.resolve_right hinf.2⟩

theorem isSize_magnitude (z : Complex Float) : IsSize z.magnitude := by
  by_cases hinf : z.HasInfinity
  · exact .inr (.inr (unpack_magnitude_of_hasInfinity hinf))
  · by_cases hnan : z.HasNaN
    · exact .inl (isNaN_magnitude hnan hinf)
    · exact .inr (reaches_magnitude (isFinite_of_not hnan hinf)).1

theorem isNaN_magnitude_iff : z.magnitude.isNaN = true ↔ z.HasNaN ∧ ¬z.HasInfinity := by
  refine ⟨fun h => ?_, fun h => isNaN_magnitude h.1 h.2⟩
  have hinf : ¬z.HasInfinity := fun hinf => by
    have hu := unpack_magnitude_of_hasInfinity hinf
    rw [isNaN_iff.1 h] at hu
    cases hu
  refine ⟨by_contra fun hnan => ?_, hinf⟩
  have hreaches := (reaches_magnitude (isFinite_of_not hnan hinf)).1
  rw [hreaches.isNaN_eq_false] at h
  cases h

end Complex

end DenseNumeric
