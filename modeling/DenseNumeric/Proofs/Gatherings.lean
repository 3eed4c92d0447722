import DenseNumeric.Proofs.Splits

/-!
# Gathering elements

Transposing an array, reading an array out of it and cutting it into parts all
do the same: they take elements from places of the array and put them, as they
are, into a new shape. Which places, and whether anything is done at all, depends
on the shape of the array only (`Structural.plan_congr`). So such an operation
has a plan, a list of gatherings, and what it gives is the list of the arrays
that are gathered (`Structural.apply_eq`).
-/

namespace DenseNumeric

/-! ## Gatherings -/

/-- A shape, and the places that its elements are taken from, row by row. -/
structure Gathering where
  shape : Shape
  places : Array Nat

namespace Gathering

/-- There is a place for each element of the new shape, and all of them are
places of the shape `s`. -/
structure IsIn (g : Gathering) (s : Shape) : Prop where
  isPositive : g.shape.IsPositive
  size : g.places.size = g.shape.numel
  lt : ∀ p ∈ g.places, p < s.numel

/-- Element `(i, j)` is taken from the place `place i j`. -/
def ofPlace (t : Shape) (place : Nat → Nat → Nat) : Gathering := ⟨t, t.tabulate place⟩

/-- The places of a transpose. -/
def transposed (s : Shape) : Gathering :=
  match s with
  | .vector _ => ofPlace s s.offset
  | .matrix m n => ofPlace (.matrix n m) fun i j => s.offset j i

/-- The places of the `k`-th part when an axis is cut every `width` positions. -/
def cut (s : Shape) (axis : Axis) (width k : Nat) : Gathering :=
  ofPlace (s.withExtent axis width) fun i j =>
    match axis with
    | .rows => s.offset (k * width + i) j
    | .cols => s.offset i (k * width + j)

/-- The places of a region, if it is more than a single element. -/
def ofRegion? (s : Shape) (r : Region) : Option Gathering :=
  r.shape?.map fun t => ⟨t, r.places s⟩

variable {s t : Shape}

theorem ofPlace_isIn (ht : t.IsPositive) {place : Nat → Nat → Nat}
    (h : ∀ i < t.rows, ∀ j < t.cols, place i j < s.numel) : (ofPlace t place).IsIn s := by
  refine ⟨ht, Shape.size_tabulate _ _, fun p hp => ?_⟩
  obtain ⟨i, hi, j, hj, rfl⟩ := Shape.mem_tabulate_iff.1 hp
  exact h i hi j hj

theorem transposed_isIn (hs : s.IsPositive) : (transposed s).IsIn s := by
  cases s with
  | vector n => exact ofPlace_isIn hs fun i hi j hj => Shape.offset_lt_numel hi hj
  | matrix m n =>
      exact ofPlace_isIn (t := .matrix n m) ⟨hs.2, hs.1⟩ fun i hi j hj =>
        Shape.offset_lt_numel hj hi

theorem cut_isIn (hs : s.IsPositive) {axis : Axis} {width k : Nat} (hwidth : 0 < width)
    (hk : (k + 1) * width ≤ s.extent axis) : (cut s axis width k).IsIn s := by
  have hextent := s.extent_withExtent axis width
  have hother := s.extent_other_withExtent axis width
  have hplace {i : Nat} (hi : i < width) : k * width + i < s.extent axis := by
    rw [Nat.succ_mul] at hk
    omega
  refine ofPlace_isIn ((Shape.isPositive_iff_extent axis).2 ⟨?_, ?_⟩) fun i hi j hj => ?_
  · rwa [hextent]
  · rw [hother]
    exact ((Shape.isPositive_iff_extent axis).1 hs).2
  · cases axis with
    | rows => exact Shape.offset_lt_numel (hplace (hi.trans_eq hextent)) (hj.trans_eq hother)
    | cols => exact Shape.offset_lt_numel (hi.trans_eq hother) (hplace (hj.trans_eq hextent))

theorem ofRegion?_isIn {r : Region} (hr : r.IsIn s) {g : Gathering} (h : ofRegion? s r = some g) :
    g.IsIn s := by
  obtain ⟨t, ht, rfl⟩ := Option.map_eq_some_iff.1 h
  obtain ⟨hpos, hnumel⟩ := Region.shape?_eq_some hr ht
  exact ⟨hpos, (Region.size_places r s).trans hnumel.symm,
    fun p => Region.lt_numel_of_mem_places hr⟩

end Gathering

namespace NumArray

variable {a b : NumArray} {g : Gathering}

/-- The elements of an array, as a gathering takes them. -/
def gather (a : NumArray) (g : Gathering) : NumArray := ⟨g.shape, a.storage.pick g.places⟩

theorem gather_isValid (ha : a.IsValid) (hg : g.IsIn a.shape) : (a.gather g).IsValid :=
  ⟨hg.isPositive, (Storage.size_pick _ _).trans hg.size, Storage.pick_isValid ha.storage _⟩

theorem loadComplex_gather (a : NumArray) {k : Nat} (hk : k < g.places.size) :
    (a.gather g).storage.loadComplex k = a.storage.loadComplex g.places[k] :=
  Storage.loadComplex_pick a.storage hk

theorem transpose_eq_gather (ha : a.IsValid) : a.transpose = a.gather (.transposed a.shape) := by
  cases hs : a.shape with
  | vector n =>
      have hvalid := gather_isValid ha (Gathering.transposed_isIn ha.shape)
      have htranspose : a.transpose = a := by
        unfold transpose
        rw [hs]
      rw [hs] at hvalid
      rw [htranspose]
      -- every element is taken from its own place
      refine ext_of_entry ha hvalid rfl hs fun i hi j hj => ?_
      rw [nrows, hs] at hi
      rw [ncols, hs] at hj
      rw [entry, hs]
      exact (entry_rearrange a (s := .vector n) (Shape.vector n).offset hi hj).symm
  | matrix m n =>
      rw [transpose_eq_rearrange hs, hs]
      rfl

theorem cut_eq_gather (a : NumArray) (axis : Axis) (width k : Nat) :
    a.cut axis width k = a.gather (.cut a.shape axis width k) :=
  cut_eq_rearrange a axis width k

end NumArray

/-! ## Structural operations -/

/-- The operations that move elements of one array. -/
inductive Structural where
  | transpose
  | get (key : List AxisKey)
  | split (axis : Axis) (sections : Nat)

namespace Structural

open NumArray

/-- The arrays that an operation gives. Reading a single element gives none. -/
def apply : Structural → NumArray → Except Error (List NumArray)
  | transpose, a => .ok [a.transpose]
  | get key, a => (a.get key).map fun
    | .scalar _ => []
    | .array b => [b]
  | split axis sections, a => a.split axis sections

/-- The gatherings that an operation carries out on an array. -/
def plan : Structural → NumArray → Except Error (List Gathering)
  | transpose, a => .ok [.transposed a.shape]
  | get key, a => (a.resolve key).map fun r => (Gathering.ofRegion? a.shape r).toList
  | split axis sections, a => (a.split axis sections).map fun _ =>
    (List.range sections).map (.cut a.shape axis (a.extent axis / sections))

variable {a b : NumArray}

/-- A plan depends on the shape only. -/
theorem plan_congr (S : Structural) (h : a.shape = b.shape) : S.plan a = S.plan b := by
  obtain ⟨s, x⟩ := a
  obtain ⟨t, y⟩ := b
  obtain rfl : s = t := h
  cases S with
  | transpose => rfl
  | get key => rfl
  | split axis sections => exact map_check_congr (map_check_congr (map_check_congr rfl))

/-- What an operation gives is gathered as planned. -/
theorem apply_eq (S : Structural) (ha : a.IsValid) :
    S.apply a = (S.plan a).map (List.map a.gather) := by
  cases S with
  | transpose => exact congrArg (fun b => Except.ok [b]) (transpose_eq_gather ha)
  | get key =>
      rw [apply, plan, map_map, NumArray.get]
      cases a.resolve key with
      | error e => rfl
      | ok r =>
          refine congrArg Except.ok ?_
          simp only [select, Gathering.ofRegion?]
          cases r.shape? <;> rfl
  | split axis sections =>
      rw [apply, plan, map_map]
      cases hsplit : a.split axis sections with
      | error e => rfl
      | ok parts =>
          obtain ⟨-, -, -, rfl⟩ := split_eq_ok_iff.1 hsplit
          refine congrArg Except.ok ?_
          rw [List.map_map]
          exact List.map_congr_left fun k _ => cut_eq_gather a axis _ k

theorem isIn_of_plan (S : Structural) (ha : a.IsValid) {gs : List Gathering}
    (h : S.plan a = .ok gs) : ∀ g ∈ gs, g.IsIn a.shape := by
  cases S with
  | transpose =>
      cases h
      exact List.forall_mem_singleton.2 (Gathering.transposed_isIn ha.shape)
  | get key =>
      obtain ⟨r, hr, rfl⟩ := map_eq_ok.1 h
      intro g hg
      exact Gathering.ofRegion?_isIn (isIn_of_resolve hr) (Option.mem_toList.1 hg)
  | split axis sections =>
      obtain ⟨parts, hparts, rfl⟩ := map_eq_ok.1 h
      obtain ⟨-, hpos, hdvd, -⟩ := split_eq_ok_iff.1 hparts
      refine List.forall_mem_map.2 fun k hk => Gathering.cut_isIn ha.shape ?_ ?_
      · exact Nat.div_pos (Nat.le_of_dvd (extent_pos ha axis) hdvd) hpos
      · calc (k + 1) * (a.extent axis / sections)
            ≤ sections * (a.extent axis / sections) :=
              Nat.mul_le_mul_right _ (List.mem_range.1 hk)
          _ = a.shape.extent axis := Nat.mul_div_cancel' hdvd

end Structural

end DenseNumeric
