import DenseNumeric.Proofs.KeyResolution
import Mathlib.Data.List.OfFn
import Mathlib.Data.List.FinRange
import Mathlib.Algebra.BigOperators.Group.List.Basic

/-!
# Shapes and regions

Where the elements of an array are. The places of a shape are its rows, one
after another; the places of a region are those of its runs, row by row. They
are places of the array, all different, and there are as many of them as the
shape of the region has elements.
-/

namespace DenseNumeric

/-! ## Shapes -/

namespace Shape

/-- No extent is zero. -/
def IsPositive (s : Shape) : Prop := 0 < s.rows ∧ 0 < s.cols

instance (s : Shape) : Decidable s.IsPositive :=
  inferInstanceAs (Decidable (0 < s.rows ∧ 0 < s.cols))

theorem length_dims (s : Shape) : s.dims.length = 1 ∨ s.dims.length = 2 := by
  cases s with
  | vector n => exact .inl rfl
  | matrix m n => exact .inr rfl

theorem dims_inj {s t : Shape} (h : s.dims = t.dims) : s = t := by
  cases s <;> cases t <;> cases h <;> rfl

theorem eq_matrix_of_dims {s : Shape} {m n : Nat} (h : s.dims = [m, n]) : s = .matrix m n :=
  dims_inj h

/-- Layout order is row by row. -/
theorem toList_tabulate {α : Type} (s : Shape) (f : Nat → Nat → α) :
    (s.tabulate f).toList
      = (List.range s.rows).flatMap fun i => (List.range s.cols).map fun j => f i j := by
  have hrange {β : Type} (n : Nat) (g : Nat → β) :
      (List.range n).map g = List.ofFn fun i : Fin n => g i := by
    rw [List.ofFn_eq_map, ← List.map_coe_finRange_eq_range, List.map_map]
    rfl
  rw [tabulate, Array.toList_ofFn, List.flatMap_def, hrange]
  refine (List.ofFn_mul _).trans (congrArg List.flatten (congrArg List.ofFn (funext fun i => ?_)))
  rw [hrange]
  refine congrArg List.ofFn (funext fun j => ?_)
  exact congrArg₂ f (s.offset_div_cols i j.2) (s.offset_mod_cols i j.2)

theorem offset_lt_size_tabulate {α : Type} {s : Shape} {i j : Nat} (hi : i < s.rows)
    (hj : j < s.cols) (f : Nat → Nat → α) : s.offset i j < (s.tabulate f).size := by
  rw [size_tabulate]
  exact offset_lt_numel hi hj

theorem getElem_tabulate {α : Type} {s : Shape} {i j : Nat} (hi : i < s.rows) (hj : j < s.cols)
    (f : Nat → Nat → α) (h : s.offset i j < (s.tabulate f).size) :
    (s.tabulate f)[s.offset i j] = f i j := by
  have := getD_tabulate hi hj f (f i j)
  rwa [Array.getD, dif_pos h] at this

theorem mem_tabulate_iff {α : Type} {s : Shape} {f : Nat → Nat → α} {x : α} :
    x ∈ s.tabulate f ↔ ∃ i < s.rows, ∃ j < s.cols, f i j = x := by
  rw [← Array.mem_toList_iff, toList_tabulate]
  simp only [List.mem_flatMap, List.mem_map, List.mem_range]

theorem map_tabulate {α β : Type} (s : Shape) (f : Nat → Nat → α) (g : α → β) :
    (s.tabulate f).map g = s.tabulate fun i j => g (f i j) := by
  refine Array.ext' ?_
  simp [toList_tabulate, List.map_flatMap, Function.comp_def]

theorem tabulate_congr {α : Type} {s : Shape} {f g : Nat → Nat → α}
    (h : ∀ i < s.rows, ∀ j < s.cols, f i j = g i j) : s.tabulate f = s.tabulate g := by
  refine Array.ext' ?_
  rw [toList_tabulate, toList_tabulate]
  refine congrArg List.flatten (List.map_congr_left fun i hi => List.map_congr_left fun j hj => ?_)
  exact h i (List.mem_range.1 hi) j (List.mem_range.1 hj)

theorem ofDims_eq_ok {dims : List Nat} {s : Shape} (h : ofDims dims = .ok s) :
    s.IsPositive ∧ s.dims = dims := by
  unfold ofDims at h
  split at h
  · split at h
    · cases h
    · cases h
      refine ⟨⟨Nat.one_pos, ?_⟩, rfl⟩
      simp only [cols]
      omega
  · split at h
    · cases h
    · cases h
      refine ⟨?_, rfl⟩
      simp only [IsPositive, rows, cols]
      omega
  · cases h

theorem ofDims_dims {s : Shape} (hs : s.IsPositive) : ofDims s.dims = .ok s := by
  cases s with
  | vector n => exact if_neg (Nat.ne_of_gt hs.2)
  | matrix m n => exact if_neg (not_or.2 ⟨Nat.ne_of_gt hs.1, Nat.ne_of_gt hs.2⟩)

/-- Different elements have different places. -/
theorem offset_inj {s : Shape} {i i' j j' : Nat} (hj : j < s.cols) (hj' : j' < s.cols)
    (h : s.offset i j = s.offset i' j') : i = i' ∧ j = j' := by
  have hrow := s.offset_div_cols i hj
  have hcol := s.offset_mod_cols i hj
  rw [h] at hrow hcol
  rw [offset_div_cols i' hj'] at hrow
  rw [offset_mod_cols i' hj'] at hcol
  exact ⟨hrow.symm, hcol.symm⟩

end Shape

/-! ## Runs -/

namespace AxisRun.IsOn

variable {r : AxisRun} {length : Nat}

theorem count_le (h : r.IsOn length) : r.count ≤ length := by
  have hpos := h.count_pos
  have hlast := h.position_lt (r.count - 1) (by omega)
  have hstep := Nat.le_mul_of_pos_right (r.count - 1) h.step_pos
  unfold position at hlast
  omega

theorem position_inj (h : r.IsOn length) {k k' : Nat} (heq : r.position k = r.position k') :
    k = k' :=
  Nat.eq_of_mul_eq_mul_right h.step_pos (Nat.add_left_cancel heq)

end AxisRun.IsOn

/-! ## Regions -/

namespace Region

variable {r : Region} {s : Shape}

theorem shape?_eq_none_iff :
    r.shape? = none ↔ r.rows.collapsed = true ∧ r.cols.collapsed = true := by
  unfold shape?
  cases r.rows.collapsed <;> cases r.cols.collapsed <;> simp

/-- The shape of a region has an element for every place of the region. -/
theorem shape?_eq_some {t : Shape} (hr : r.IsIn s) (h : r.shape? = some t) :
    t.IsPositive ∧ t.numel = r.rows.count * r.cols.count := by
  obtain ⟨⟨first, step, m, collapsed⟩, ⟨first', step', n, collapsed'⟩⟩ := r
  obtain ⟨⟨-, hm, hm', -⟩, ⟨-, hn, hn', -⟩⟩ := hr
  cases collapsed <;> cases collapsed' <;> cases h
  · exact ⟨⟨hm, hn⟩, rfl⟩
  · obtain rfl : n = 1 := hn' rfl
    exact ⟨⟨Nat.one_pos, hm⟩, Nat.mul_comm 1 m⟩
  · obtain rfl : m = 1 := hm' rfl
    exact ⟨⟨Nat.one_pos, hn⟩, rfl⟩

@[simp] theorem size_places (r : Region) (s : Shape) :
    (r.places s).size = r.rows.count * r.cols.count :=
  Shape.size_tabulate _ _

theorem size_places_of_shape?_eq_none (hr : r.IsIn s) (h : r.shape? = none) :
    (r.places s).size = 1 := by
  obtain ⟨hrows, hcols⟩ := shape?_eq_none_iff.1 h
  rw [size_places, hr.rows.count_eq_one hrows, hr.cols.count_eq_one hcols]

theorem mem_places_iff {p : Nat} :
    p ∈ r.places s ↔ ∃ i < r.rows.count, ∃ j < r.cols.count,
      s.offset (r.rows.position i) (r.cols.position j) = p :=
  Shape.mem_tabulate_iff

theorem lt_numel_of_mem_places (hr : r.IsIn s) {p : Nat} (hp : p ∈ r.places s) : p < s.numel := by
  obtain ⟨i, hi, j, hj, rfl⟩ := mem_places_iff.1 hp
  exact Shape.offset_lt_numel (hr.rows.position_lt i hi) (hr.cols.position_lt j hj)

/-- No place of a region is visited twice. -/
theorem nodup_places (hr : r.IsIn s) : (r.places s).toList.Nodup := by
  rw [places, Shape.tabulate, Array.toList_ofFn, List.nodup_ofFn]
  rintro ⟨k, hk⟩ ⟨k', hk'⟩ h
  simp only [Shape.cols] at h
  have hn := hr.cols.count_pos
  have hcol (k : Nat) : r.cols.position (k % r.cols.count) < s.cols :=
    hr.cols.position_lt _ (Nat.mod_lt k hn)
  obtain ⟨hrows, hcols⟩ := Shape.offset_inj (hcol k) (hcol k') h
  have hdiv := hr.rows.position_inj hrows
  have hmod := hr.cols.position_inj hcols
  refine Fin.ext ?_
  show k = k'
  rw [← Nat.div_add_mod k r.cols.count, hdiv, hmod, Nat.div_add_mod]

end Region

/-- A key selects a single element if all its entries are positions. -/
theorem NumArray.shape?_eq_none_iff {a : NumArray} {key : List AxisKey} {r : Region}
    (h : a.resolve key = .ok r) : r.shape? = none ↔ ∀ entry ∈ key, entry.isPosition = true := by
  rw [Region.shape?_eq_none_iff]
  cases hs : a.shape with
  | vector n =>
      obtain ⟨col, run, rfl, hcol, rfl⟩ := (resolve_vector_eq_ok_iff hs).1 h
      simp [AxisRun.single, AxisKey.collapsed_of_resolve hcol]
  | matrix m n =>
      obtain ⟨row, col, rows, cols, rfl, hrow, hcol, rfl⟩ := (resolve_matrix_eq_ok_iff hs).1 h
      simp [AxisKey.collapsed_of_resolve hrow, AxisKey.collapsed_of_resolve hcol]

end DenseNumeric
