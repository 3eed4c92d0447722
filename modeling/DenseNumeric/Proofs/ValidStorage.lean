import DenseNumeric.Proofs.Rounding
import DenseNumeric.Storage

/-!
# Valid runs of elements

A run of elements is valid if it has a second plane exactly for the complex
types, as long as the first one, and every component is a value of the element
type. Nothing in the types says so: some ways to make a run round what they
store, and others move components that were rounded before.

There is one lemma for each way to make a run, and one for its size.
-/

namespace DenseNumeric.Storage

/-! ## Validity -/

/-- Every component is a value of the element type. -/
def IsQuantized (dtype : DType) (plane : Array Float) : Prop :=
  ∀ x ∈ plane, dtype.quantize x = x

/-- There is a second plane for the complex types, as long as the first, and
all components are values of the element type. -/
structure IsValid (s : Storage) : Prop where
  isSome_im : s.im.isSome = s.dtype.isComplex
  size_im : ∀ plane ∈ s.im, plane.size = s.re.size
  re : IsQuantized s.dtype s.re
  im : ∀ plane ∈ s.im, IsQuantized s.dtype plane

section IsQuantized

variable {dtype : DType}

theorem isQuantized_map_quantize (dtype : DType) (plane : Array Float) :
    IsQuantized dtype (plane.map dtype.quantize) := by
  intro x hx
  obtain ⟨y, -, rfl⟩ := Array.mem_map.1 hx
  exact dtype.quantize_quantize y

theorem isQuantized_replicate_zero (dtype : DType) (n : Nat) :
    IsQuantized dtype (.replicate n 0) := by
  intro x hx
  obtain rfl := (Array.mem_replicate.1 hx).2
  exact dtype.quantize_zero

theorem IsQuantized.getD {plane : Array Float} (h : IsQuantized dtype plane) (i : Nat) :
    dtype.quantize (plane.getD i 0) = plane.getD i 0 := by
  by_cases hi : i < plane.size
  · rw [Array.getD_eq_getD_getElem?, Array.getElem?_eq_getElem hi]
    exact h _ (Array.getElem_mem hi)
  · rw [Array.getD_eq_getD_getElem?, Array.getElem?_eq_none (by omega)]
    exact dtype.quantize_zero

end IsQuantized

/-- Two planes that are quantized make a valid run of any type. -/
theorem isValid_mk_imaginary {dtype : DType} {re plane : Array Float} (hsize : plane.size = re.size)
    (hre : IsQuantized dtype re) (him : IsQuantized dtype plane) :
    IsValid ⟨dtype, re, imaginary dtype plane⟩ where
  isSome_im := by
    show (imaginary dtype plane).isSome = dtype.isComplex
    rw [imaginary]
    cases dtype.isComplex <;> rfl
  size_im p hp := by
    simp only [imaginary] at hp
    split at hp <;> cases hp
    exact hsize
  re := hre
  im p hp := by
    simp only [imaginary] at hp
    split at hp <;> cases hp
    exact him

/-! ## Construction -/

theorem zeros_isValid (n : Nat) (dtype : DType) : (zeros n dtype).IsValid :=
  isValid_mk_imaginary rfl (isQuantized_replicate_zero dtype n) (isQuantized_replicate_zero dtype n)

@[simp] theorem size_zeros (n : Nat) (dtype : DType) : (zeros n dtype).size = n :=
  Array.size_replicate

theorem filled_isValid (n : Nat) (dtype : DType) (value : Scalar) :
    (filled n dtype value).IsValid := by
  refine isValid_mk_imaginary (by simp) ?_ ?_ <;>
  · intro x hx
    obtain rfl := (Array.mem_replicate.1 hx).2
    exact dtype.quantize_quantize _

@[simp] theorem size_filled (n : Nat) (dtype : DType) (value : Scalar) :
    (filled n dtype value).size = n :=
  Array.size_replicate

theorem ofPlanes_isValid {dtype : DType} {re : Array Float} {im : Option (Array Float)}
    {s : Storage} (h : ofPlanes dtype re im = .ok s) : s.IsValid ∧ s.size = re.size := by
  simp only [ofPlanes] at h
  split at h
  · cases h
  · rename_i hsize
    cases h
    refine ⟨isValid_mk_imaginary ?_ (isQuantized_map_quantize _ _)
      (isQuantized_map_quantize _ _), ?_⟩
    · rw [Array.size_map, Array.size_map]
      exact Classical.not_not.1 hsize
    · exact Array.size_map

theorem ofComplex_isValid (values : Array (Complex Float)) (dtype : DType) :
    (ofComplex values dtype).IsValid := by
  have hmap (f : Complex Float → Float) :
      IsQuantized dtype (values.map fun z => dtype.quantize (f z)) := by
    intro x hx
    obtain ⟨z, -, rfl⟩ := Array.mem_map.1 hx
    exact dtype.quantize_quantize _
  exact isValid_mk_imaginary (by simp) (hmap Complex.re) (hmap Complex.im)

@[simp] theorem size_ofComplex (values : Array (Complex Float)) (dtype : DType) :
    (ofComplex values dtype).size = values.size :=
  Array.size_map

/-! ## Stores -/

theorem storeComplex_isValid {s : Storage} (h : s.IsValid) (i : Nat) (z : Complex Float) :
    (s.storeComplex i z).IsValid where
  isSome_im := Option.isSome_map.trans h.isSome_im
  size_im p hp := by
    obtain ⟨plane, hplane, rfl⟩ := Option.map_eq_some_iff.1 hp
    simpa [storeComplex] using h.size_im plane hplane
  re x hx := by
    rcases Array.mem_or_eq_of_mem_setIfInBounds hx with hx | rfl
    · exact h.re x hx
    · exact s.dtype.quantize_quantize _
  im p hp x hx := by
    obtain ⟨plane, hplane, rfl⟩ := Option.map_eq_some_iff.1 hp
    rcases Array.mem_or_eq_of_mem_setIfInBounds hx with hx | rfl
    · exact h.im plane hplane x hx
    · exact s.dtype.quantize_quantize _

@[simp] theorem size_storeComplex (s : Storage) (i : Nat) (z : Complex Float) :
    (s.storeComplex i z).size = s.size :=
  Array.size_setIfInBounds

/-- What every store keeps, a sequence of stores keeps. -/
theorem foldl_store_induction {P : Storage → Prop} {s : Storage} (start : P s)
    (step : ∀ s i z, P s → P (storeComplex s i z)) (pairs : List (Nat × Nat))
    (value : Nat → Scalar) :
    P (pairs.foldl (fun acc (place, k) => acc.store place (value k)) s) := by
  induction pairs generalizing s with
  | nil => exact start
  | cons p pairs ih => exact ih (step s p.1 _ start)

theorem assign_induction {P : Storage → Prop} {s : Storage} (start : P s)
    (step : ∀ s i z, P s → P (storeComplex s i z)) (places : Array Nat) (value : Nat → Scalar) :
    P (s.assign places value) :=
  foldl_store_induction start step places.toList.zipIdx value

theorem assign_isValid {s : Storage} (h : s.IsValid) (places : Array Nat) (value : Nat → Scalar) :
    (s.assign places value).IsValid :=
  assign_induction h (fun _ i z h => storeComplex_isValid h i z) places value

@[simp] theorem size_assign (s : Storage) (places : Array Nat) (value : Nat → Scalar) :
    (s.assign places value).size = s.size :=
  assign_induction (P := fun t => t.size = s.size) rfl
    (fun t i z h => (size_storeComplex t i z).trans h) places value

@[simp] theorem dtype_assign (s : Storage) (places : Array Nat) (value : Nat → Scalar) :
    (s.assign places value).dtype = s.dtype :=
  assign_induction (P := fun t => t.dtype = s.dtype) rfl (fun _ _ _ h => h) places value

/-! ## Runs of runs and conversion -/

/-- A component that is picked is one that was there, or zero. -/
theorem pick_isValid {s : Storage} (h : s.IsValid) (places : Array Nat) :
    (s.pick places).IsValid where
  isSome_im := Option.isSome_map.trans h.isSome_im
  size_im p hp := by
    obtain ⟨plane, -, rfl⟩ := Option.map_eq_some_iff.1 hp
    simp [pick]
  re x hx := by
    obtain ⟨i, -, rfl⟩ := Array.mem_map.1 hx
    exact h.re.getD i
  im p hp x hx := by
    obtain ⟨plane, hplane, rfl⟩ := Option.map_eq_some_iff.1 hp
    obtain ⟨i, -, rfl⟩ := Array.mem_map.1 hx
    exact (h.im plane hplane).getD i

@[simp] theorem size_pick (s : Storage) (places : Array Nat) : (s.pick places).size = places.size :=
  Array.size_map

theorem size_getD_im {s : Storage} (h : s.IsValid) (hc : s.dtype.isComplex) :
    (s.im.getD #[]).size = s.size := by
  have hsome := h.isSome_im
  rw [hc] at hsome
  obtain ⟨plane, hplane⟩ := Option.isSome_iff_exists.1 hsome
  rw [hplane]
  exact h.size_im plane hplane

theorem concat_isValid {dtype : DType} {runs : List Storage}
    (h : ∀ s ∈ runs, s.IsValid ∧ s.dtype = dtype) : (concat dtype runs).IsValid := by
  have hre : IsQuantized dtype (runs.flatMap fun s => s.re.toList).toArray := by
    intro x hx
    obtain ⟨s, hs, hx⟩ := List.mem_flatMap.1 (List.mem_toArray.1 hx)
    obtain ⟨hvalid, rfl⟩ := h s hs
    exact hvalid.re x (Array.mem_toList_iff.1 hx)
  have him : IsQuantized dtype (runs.flatMap fun s => (s.im.getD #[]).toList).toArray := by
    intro x hx
    obtain ⟨s, hs, hx⟩ := List.mem_flatMap.1 (List.mem_toArray.1 hx)
    obtain ⟨hvalid, rfl⟩ := h s hs
    cases hplane : s.im with
    | none => simp [hplane] at hx
    | some plane =>
        rw [hplane] at hx
        exact hvalid.im plane hplane x (Array.mem_toList_iff.1 hx)
  by_cases hc : dtype.isComplex
  · refine isValid_mk_imaginary ?_ hre him
    simp only [List.size_toArray, List.length_flatMap, Array.length_toList]
    refine congrArg List.sum (List.map_congr_left fun s hs => ?_)
    obtain ⟨hvalid, rfl⟩ := h s hs
    exact size_getD_im hvalid hc
  · -- the second plane is dropped, so that any other may stand for it
    have hnone : concat dtype runs
        = ⟨dtype, (runs.flatMap fun s => s.re.toList).toArray,
            imaginary dtype (.replicate (runs.flatMap fun s => s.re.toList).toArray.size 0)⟩ := by
      simp only [concat, imaginary, if_neg hc]
    rw [hnone]
    exact isValid_mk_imaginary (by simp) hre (isQuantized_replicate_zero _ _)

theorem size_concat (dtype : DType) (runs : List Storage) :
    (concat dtype runs).size = (runs.map size).sum := by
  simp only [concat, size, List.size_toArray, List.length_flatMap, Array.length_toList]
  rfl

theorem cast_isValid {s : Storage} (h : s.IsValid) (dtype : DType) : (s.cast dtype).IsValid := by
  unfold cast
  split
  · exact h
  · refine isValid_mk_imaginary ?_ (isQuantized_map_quantize _ _) ?_
    · cases hplane : s.im with
      | none => simp [size]
      | some plane => simpa using h.size_im plane hplane
    · cases s.im with
      | none => exact isQuantized_replicate_zero dtype _
      | some plane => exact isQuantized_map_quantize dtype plane

@[simp] theorem dtype_cast (s : Storage) (dtype : DType) : (s.cast dtype).dtype = dtype := by
  unfold cast
  split
  · next h => exact h.symm
  · rfl

@[simp] theorem size_cast (s : Storage) (dtype : DType) : (s.cast dtype).size = s.size := by
  unfold cast
  split
  · rfl
  · exact Array.size_map

end DenseNumeric.Storage
