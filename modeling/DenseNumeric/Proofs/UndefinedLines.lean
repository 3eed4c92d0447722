import DenseNumeric.Proofs.EuclideanNorm
import DenseNumeric.Proofs.LineNorms

/-!
# Undefined elements in norms

An element with an undefined part has an undefined size, unless its other part
is infinite, and a line with an undefined size in it has an undefined sum. There
the trace is lost: the largest sum is found by comparisons, which an undefined
sum loses, so the norms along an axis are what they would be without such lines.
They are never undefined, and out of range only if one of the other lines is.

The Frobenius norm asks every component whether it is defined before it compares
any.
-/

namespace DenseNumeric

/-! ## Components and elements -/

namespace Storage

variable {s : Storage} {p : Float → Prop}

theorem exists_mem_plane_iff (plane : Array Float) :
    (∃ x ∈ plane, p x) ↔ ∃ k < plane.size, p (plane.getD k 0) := by
  constructor
  · rintro ⟨x, hx, hp⟩
    obtain ⟨k, hk, rfl⟩ := Array.mem_iff_getElem.1 hx
    refine ⟨k, hk, ?_⟩
    rwa [Array.getD_eq_getD_getElem?, Array.getElem?_eq_getElem hk]
  · rintro ⟨k, hk, hp⟩
    rw [Array.getD_eq_getD_getElem?, Array.getElem?_eq_getElem hk] at hp
    exact ⟨_, Array.getElem_mem hk, hp⟩

/-- What is not true of zero is true of a component if it is of a part of an element. -/
theorem exists_mem_components_iff (hs : s.IsValid) (h0 : ¬p 0) :
    (∃ x ∈ s.components, p x) ↔
      ∃ k < s.size, p (s.loadComplex k).re ∨ p (s.loadComplex k).im := by
  have hcomponents : (∃ x ∈ s.components, p x) ↔
      (∃ x ∈ s.re, p x) ∨ ∃ x ∈ s.im.getD #[], p x := by
    simp only [components, List.mem_append, Array.mem_toList_iff, or_and_right, exists_or]
  have him : (∃ x ∈ s.im.getD #[], p x) ↔ ∃ k < s.size, p (s.loadComplex k).im := by
    cases hplane : s.im with
    | none => simp [loadComplex, hplane, h0]
    | some plane =>
        have hsize : plane.size = s.size := hs.size_im plane hplane
        rw [Option.getD_some, exists_mem_plane_iff, hsize]
        simp only [loadComplex, hplane, Option.map_some, Option.getD_some]
  rw [hcomponents, him, exists_mem_plane_iff]
  simp only [and_or_left, exists_or]
  rfl

end Storage

namespace NumArray

open Binary

variable {a : NumArray}

/-- One of the components is undefined. -/
def HasNaN (a : NumArray) : Prop := ∃ x ∈ a.storage.components, x.isNaN = true

theorem hasNaN_iff (ha : a.IsValid) :
    a.HasNaN ↔ ∃ i < a.nrows, ∃ j < a.ncols, (a.entry i j).HasNaN := by
  have hparts : a.HasNaN ↔ ∃ k < a.storage.size, (a.storage.loadComplex k).HasNaN :=
    Storage.exists_mem_components_iff ha.storage (by decide +kernel)
  rw [hparts]
  constructor
  · rintro ⟨k, hk, hnan⟩
    rw [ha.size] at hk
    refine ⟨k / a.shape.cols, Nat.div_lt_of_lt_mul (Nat.mul_comm _ _ ▸ hk), k % a.shape.cols,
      Nat.mod_lt _ ha.shape.2, ?_⟩
    have hplace : a.shape.offset (k / a.shape.cols) (k % a.shape.cols) = k :=
      Nat.div_add_mod' k a.shape.cols
    rwa [entry, hplace]
  · rintro ⟨i, hi, j, hj, hnan⟩
    exact ⟨_, offset_lt_size_of_isValid ha hi hj, hnan⟩

/-! ## Lines -/

theorem isNaN_lineSum_iff (axis : Axis) (k : Nat) :
    (a.lineSum Complex.magnitude axis k).isNaN = true ↔
      ∃ l < a.extent axis.other,
        (a.entryOn axis k l).HasNaN ∧ ¬(a.entryOn axis k l).HasInfinity := by
  rw [lineSum, isNaN_sumOver_iff fun l _ => Complex.isSize_magnitude _]
  simp only [List.mem_range, Complex.isNaN_magnitude_iff]

theorem isSize_lineSum (axis : Axis) (k : Nat) : IsSize (a.lineSum Complex.magnitude axis k) :=
  isSize_sumOver fun _ _ => Complex.isSize_magnitude _

/-- The Frobenius norm of a matrix is undefined exactly if a component is. The
norms along an axis are the largest ones of the sums that are defined: they are
never undefined themselves, and out of range only if one of these sums is. -/
theorem normWith_passes_over_undefined (ha : a.IsValid) (hm : a.shape.isMatrix = true) :
    (a.HasNaN ↔ ∃ i < a.nrows, ∃ j < a.ncols, (a.entry i j).HasNaN)
      ∧ (∃ x, a.normWith .frobenius = .ok x ∧ (x.isNaN = true ↔ a.HasNaN))
      ∧ ∀ axis, ∃ x, a.normWith (.ofAxis axis) = .ok x
        ∧ x.isNaN = false
        ∧ (x.isFinite = false
          ↔ ∃ k < a.extent axis, (a.lineSum Complex.magnitude axis k).isInf = true)
        ∧ x = Arith.largestOver ((List.range (a.extent axis)).filter fun k =>
          !(a.lineSum Complex.magnitude axis k).isNaN) (a.lineSum Complex.magnitude axis)
        ∧ ∀ k < a.extent axis, (a.lineSum Complex.magnitude axis k).isNaN = true
          ↔ ∃ l < a.extent axis.other,
            (a.entryOn axis k l).HasNaN ∧ ¬(a.entryOn axis k l).HasInfinity := by
  refine ⟨hasNaN_iff ha, ⟨a.norm, rfl, isNaN_euclideanNorm_iff⟩, fun axis => ?_⟩
  refine ⟨_, normWith_ofAxis hm axis, (reaches_largestOver _ _).isNaN_eq_false, ?_,
    (largestOver_filter_isNaN _ _).symm, fun k _ => isNaN_lineSum_iff axis k⟩
  rw [lineNorm, isFinite_largestOver_iff fun k _ => isSize_lineSum axis k]
  simp only [List.mem_range]

/-- An undefined element in a row, beside a one. -/
def undefinedBesideOne : NumArray := ⟨.matrix 1 2, ⟨.f64, #[0 / 0, 1], none⟩⟩

theorem undefinedBesideOne_isValid : undefinedBesideOne.IsValid := by
  have hmake : ofPlanes [1, 2] .f64 #[0 / 0, 1] none = .ok undefinedBesideOne := by decide +kernel
  exact ofPlanes_isValid hmake

theorem normWith_passes_over_undefined_undefinedBesideOne :
    (undefinedBesideOne.IsValid ∧ undefinedBesideOne.shape.isMatrix = true) ∧
      undefinedBesideOne.HasNaN ∧
      (∃ x, undefinedBesideOne.normWith .frobenius = .ok x ∧ x.isNaN = true) ∧
      ∀ axis, ∃ x, undefinedBesideOne.normWith (.ofAxis axis) = .ok x ∧ x.isNaN = false := by
  obtain ⟨hnan, ⟨x, hx, hiff⟩, hlines⟩ :=
    normWith_passes_over_undefined undefinedBesideOne_isValid rfl
  have hundefined : undefinedBesideOne.HasNaN :=
    hnan.2 ⟨0, Nat.one_pos, 0, Nat.two_pos, .inl (by decide +kernel)⟩
  refine ⟨⟨undefinedBesideOne_isValid, rfl⟩, hundefined, ⟨x, hx, hiff.2 hundefined⟩,
    fun axis => ?_⟩
  obtain ⟨y, hy, hdefined, -⟩ := hlines axis
  exact ⟨y, hy, hdefined⟩

/-- Its column norm is that of the second column, and its row norm that of no row. -/
theorem undefinedBesideOne_normWith :
    undefinedBesideOne.IsValid ∧ undefinedBesideOne.HasNaN ∧
      undefinedBesideOne.normWith .one = .ok 1 ∧ undefinedBesideOne.normWith .infinity = .ok 0 ∧
      (1 : Float).isFinite = true ∧ (0 : Float).isFinite = true := by
  have hnan : undefinedBesideOne.HasNaN :=
    ⟨0 / 0, List.mem_append_left _ List.mem_cons_self, by decide +kernel⟩
  exact ⟨undefinedBesideOne_isValid, hnan, by decide +kernel, by decide +kernel,
    by decide +kernel, by decide +kernel⟩

end NumArray

end DenseNumeric
