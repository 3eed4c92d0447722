import DenseNumeric.Proofs.CheckedIndexing
import Mathlib.Data.Set.Card
import Mathlib.Order.Interval.Set.Defs

/-!
# Selected elements

What reading by a key means, said without runs and regions. An element of an
array is known by one place per axis. A key keeps the axes it slices; the
extent of one of them is the number of steps that stay before the bound of the
slice, and step `k` of a slice leads `k * step` places on from where it starts.
A position has one place, and its axis is gone.

Reading gives a result exactly for the keys that can be followed, and the
result has these extents and these elements. Evaluated in machine words it is
the same, and no step of the evaluation goes wrong.
-/

namespace DenseNumeric

/-! ## Elements by their places -/

/-- The element at one place per axis, if there is one. -/
def NumArray.at? (a : NumArray) (places : List Int) : Option Scalar :=
  match a.shape, places with
  | .vector n, [j] => if 0 ≤ j ∧ j < n then some (a.storage.load j.toNat) else none
  | .matrix m n, [i, j] =>
    if (0 ≤ i ∧ i < m) ∧ 0 ≤ j ∧ j < n then some (a.storage.load (i.toNat * n + j.toNat)) else none
  | _, _ => none

/-- The extents of the axes that a key keeps. -/
noncomputable def keptExtents : List AxisKey → List Nat → List Nat
  | .position _ :: key, _ :: dims => keptExtents key dims
  | .slice s :: key, n :: dims =>
    {k : Nat | s.first n + k * s.step < s.bound n}.ncard :: keptExtents key dims
  | _, _ => []

/-- Where an element of a selection comes from, by its places on the axes that
are kept. -/
def sourcePlaces : List AxisKey → List Nat → List Nat → List Int
  | .position index :: key, n :: dims, ks => fromStart index n :: sourcePlaces key dims ks
  | .slice s :: key, n :: dims, k :: ks =>
    (s.first n + k * s.step) :: sourcePlaces key dims ks
  | _, _, _ => []

namespace NumArray

variable {a : NumArray}

theorem at?_vector {n j : Nat} (hs : a.shape = .vector n) (hj : j < n) :
    a.at? [j] = some (a.storage.load j) := by
  simp only [at?, hs]
  rw [if_pos (by omega), Int.toNat_natCast]

theorem at?_matrix {m n i j : Nat} (hs : a.shape = .matrix m n) (hi : i < m) (hj : j < n) :
    a.at? [i, j] = some (a.storage.load (i * n + j)) := by
  simp only [at?, hs]
  rw [if_pos (by omega), Int.toNat_natCast, Int.toNat_natCast]

end NumArray

/-! ## One axis -/

/-- What is kept of a value for an axis: nothing if the axis is gone. -/
def AxisRun.keep (r : AxisRun) (x : Nat) : List Nat := if r.collapsed then [] else [x]

namespace AxisKey

variable {length : Nat} {r : AxisRun}

theorem ncard_of_resolve {s : Slice} (h : (slice s).resolve length = .ok r) :
    {k : Nat | s.first length + k * s.step < s.bound length}.ncard = r.count := by
  have hset : {k : Nat | s.first length + k * s.step < s.bound length} = Set.Iio r.count :=
    Set.ext fun k => (position_of_resolve_slice h k).1.symm
  rw [hset, Set.ncard_eq_toFinset_card', Set.toFinset_Iio, Nat.card_Iio]

theorem sourcePlaces_cons {entry : AxisKey} (h : entry.resolve length = .ok r) {k : Nat}
    (hk : k < r.count) (key : List AxisKey) (dims ks : List Nat) :
    sourcePlaces (entry :: key) (length :: dims) (r.keep k ++ ks)
      = (r.position k : Int) :: sourcePlaces key dims ks := by
  have hcollapsed := collapsed_of_resolve h
  cases entry with
  | position index =>
      obtain ⟨hcount, hfirst⟩ := position_of_resolve_position h
      obtain rfl : k = 0 := by omega
      rw [AxisRun.keep, hcollapsed, hfirst]
      rfl
  | slice s =>
      rw [AxisRun.keep, hcollapsed, (position_of_resolve_slice h k).2]
      rfl

theorem keptExtents_cons {entry : AxisKey} (h : entry.resolve length = .ok r)
    (key : List AxisKey) (dims : List Nat) :
    keptExtents (entry :: key) (length :: dims) = r.keep r.count ++ keptExtents key dims := by
  have hcollapsed := collapsed_of_resolve h
  cases entry with
  | position index =>
      rw [AxisRun.keep, hcollapsed]
      rfl
  | slice s =>
      rw [AxisRun.keep, hcollapsed, keptExtents, ncard_of_resolve h]
      rfl

end AxisKey

/-! ## Regions -/

namespace Region

variable {r : Region} {s t : Shape}

/-- Values for both axes, where they are kept. -/
def keep (r : Region) (x y : Nat) : List Nat := r.rows.keep x ++ r.cols.keep y

theorem dims_of_shape? (h : r.shape? = some t) : t.dims = r.keep r.rows.count r.cols.count := by
  obtain ⟨⟨first, step, m, collapsed⟩, ⟨first', step', n, collapsed'⟩⟩ := r
  cases collapsed <;> cases collapsed' <;> cases h <;> rfl

theorem keep_of_shape?_eq_none (h : r.shape? = none) (x y : Nat) : r.keep x y = [] := by
  obtain ⟨hrows, hcols⟩ := shape?_eq_none_iff.1 h
  simp [keep, AxisRun.keep, hrows, hcols]

/-- Places on the axes that are kept are places on both axes, the only place on
an axis that is gone being the first. -/
theorem exists_keep_eq (hr : r.IsIn s) {ks : List Nat}
    (h : List.Forall₂ (· < ·) ks (r.keep r.rows.count r.cols.count)) :
    ∃ i < r.rows.count, ∃ j < r.cols.count, ks = r.keep i j := by
  have hm := hr.rows.count_pos
  have hn := hr.cols.count_pos
  obtain ⟨⟨first, step, m, collapsed⟩, ⟨first', step', n, collapsed'⟩⟩ := r
  cases collapsed <;> cases collapsed'
  · obtain _ | ⟨hi, _ | ⟨hj, ⟨⟩⟩⟩ := h
    exact ⟨_, hi, _, hj, rfl⟩
  · obtain _ | ⟨hi, ⟨⟩⟩ := h
    exact ⟨_, hi, 0, hn, rfl⟩
  · obtain _ | ⟨hj, ⟨⟩⟩ := h
    exact ⟨0, hm, _, hj, rfl⟩
  · obtain ⟨⟩ := h
    exact ⟨0, hm, 0, hn, rfl⟩

end Region

/-! ## All axes -/

namespace NumArray

variable {a b : NumArray} {key : List AxisKey} {r : Region}

/-- The source of an element of a region. -/
theorem at?_sourcePlaces (h : a.resolve key = .ok r) {i j : Nat} (hi : i < r.rows.count)
    (hj : j < r.cols.count) :
    a.at? (sourcePlaces key a.dims (r.keep i j))
      = some (a.storage.load (a.shape.offset (r.rows.position i) (r.cols.position j))) := by
  have hr := isIn_of_resolve h
  rw [dims]
  cases hs : a.shape with
  | vector n =>
      obtain ⟨col, run, rfl, hcol, rfl⟩ := (resolve_vector_eq_ok_iff hs).1 h
      obtain rfl : i = 0 := Nat.lt_one_iff.1 hi
      have hsource := AxisKey.sourcePlaces_cons hcol hj [] [] []
      rw [List.append_nil] at hsource
      have hcols := hr.cols.position_lt j hj
      rw [hs] at hcols
      refine (congrArg a.at? hsource).trans ((at?_vector hs hcols).trans ?_)
      simp [Shape.offset, AxisRun.single, AxisRun.position]
  | matrix m n =>
      obtain ⟨row, col, rows, cols, rfl, hrow, hcol, rfl⟩ := (resolve_matrix_eq_ok_iff hs).1 h
      have hsource := AxisKey.sourcePlaces_cons hrow hi [col] [n] (cols.keep j ++ [])
      rw [AxisKey.sourcePlaces_cons hcol hj, List.append_nil] at hsource
      have hrows := hr.rows.position_lt i hi
      have hcols := hr.cols.position_lt j hj
      rw [hs] at hrows hcols
      exact (congrArg a.at? hsource).trans (at?_matrix hs hrows hcols)

/-- An element of the array that is made of a region. -/
theorem at?_keep (hr : r.IsIn a.shape) (hb : r.shape? = some b.shape) {i j : Nat}
    (hi : i < r.rows.count) (hj : j < r.cols.count) :
    b.at? ((r.keep i j).map Int.ofNat) = some (b.storage.load (i * r.cols.count + j)) := by
  obtain ⟨⟨first, step, m, collapsed⟩, ⟨first', step', n, collapsed'⟩⟩ := r
  cases collapsed <;> cases collapsed'
  · exact at?_matrix (Option.some.inj hb).symm hi hj
  · obtain rfl : n = 1 := hr.cols.count_eq_one rfl
    obtain rfl : j = 0 := Nat.lt_one_iff.1 hj
    refine (at?_vector (Option.some.inj hb).symm hi).trans ?_
    rw [Nat.mul_one, Nat.add_zero]
  · obtain rfl : m = 1 := hr.rows.count_eq_one rfl
    obtain rfl : i = 0 := Nat.lt_one_iff.1 hi
    refine (at?_vector (Option.some.inj hb).symm hj).trans ?_
    rw [Nat.zero_mul, Nat.zero_add]
  · cases hb

theorem keptExtents_eq (h : a.resolve key = .ok r) :
    keptExtents key a.dims = r.keep r.rows.count r.cols.count := by
  rw [dims]
  cases hs : a.shape with
  | vector n =>
      obtain ⟨col, run, rfl, hcol, rfl⟩ := (resolve_vector_eq_ok_iff hs).1 h
      exact (AxisKey.keptExtents_cons hcol [] []).trans (List.append_nil _)
  | matrix m n =>
      obtain ⟨row, col, rows, cols, rfl, hrow, hcol, rfl⟩ := (resolve_matrix_eq_ok_iff hs).1 h
      have hcols := (AxisKey.keptExtents_cons hcol [] []).trans (List.append_nil _)
      exact (AxisKey.keptExtents_cons hrow [col] [n]).trans
        (congrArg (rows.keep rows.count ++ ·) hcols)

theorem exists_get_iff :
    (∃ sel, a.get key = .ok sel) ↔ List.Forall₂ AxisKey.IsAdmissible key a.dims := by
  have hget : (∃ sel, a.get key = .ok sel) ↔ ∃ r, a.resolve key = .ok r := by
    simp only [get, bind_eq_ok, pure_eq_ok]
    constructor
    · rintro ⟨sel, r, hr, -⟩
      exact ⟨r, hr⟩
    · rintro ⟨r, hr⟩
      exact ⟨_, r, hr, rfl⟩
  rw [hget, dims]
  cases hs : a.shape with
  | vector n =>
      simp only [resolve_vector_eq_ok_iff hs, Shape.dims]
      constructor
      · rintro ⟨r, col, run, rfl, hcol, -⟩
        exact .cons (AxisKey.exists_resolve_iff.1 ⟨run, hcol⟩) .nil
      · rintro (_ | ⟨hcol, ⟨⟩⟩)
        obtain ⟨run, hcol⟩ := AxisKey.exists_resolve_iff.2 hcol
        exact ⟨_, _, run, rfl, hcol, rfl⟩
  | matrix m n =>
      simp only [resolve_matrix_eq_ok_iff hs, Shape.dims]
      constructor
      · rintro ⟨r, row, col, rows, cols, rfl, hrow, hcol, -⟩
        exact .cons (AxisKey.exists_resolve_iff.1 ⟨rows, hrow⟩)
          (.cons (AxisKey.exists_resolve_iff.1 ⟨cols, hcol⟩) .nil)
      · rintro (_ | ⟨hrow, _ | ⟨hcol, ⟨⟩⟩⟩)
        obtain ⟨rows, hrow⟩ := AxisKey.exists_resolve_iff.2 hrow
        obtain ⟨cols, hcol⟩ := AxisKey.exists_resolve_iff.2 hcol
        exact ⟨_, _, _, rows, cols, rfl, hrow, hcol, rfl⟩

/-- A single element is the one at the positions. -/
theorem get_eq_scalar {x : Scalar} (h : a.get key = .ok (.scalar x)) :
    (∀ entry ∈ key, entry.isPosition = true) ∧ a.at? (sourcePlaces key a.dims []) = some x := by
  obtain ⟨r, hr, h⟩ := bind_eq_ok.1 h
  replace h := pure_eq_ok.1 h
  unfold select at h
  split at h
  · next hshape =>
      have hkey := (shape?_eq_none_iff hr).1 hshape
      cases h
      have hr' := isIn_of_resolve hr
      have hload := Storage.load_pick_places a.storage a.shape hr'.rows.count_pos
        hr'.cols.count_pos
      have hplaces : sourcePlaces key a.dims [] = sourcePlaces key a.dims (r.keep 0 0) := by
        rw [Region.keep_of_shape?_eq_none hshape]
      rw [Nat.zero_mul] at hload
      refine ⟨hkey, ?_⟩
      rw [hplaces, at?_sourcePlaces hr hr'.rows.count_pos hr'.cols.count_pos, ← hload]
  · cases h

/-- The extents and the elements of an array that is read. -/
theorem get_eq_array (h : a.get key = .ok (.array b)) :
    (∃ entry ∈ key, entry.isPosition = false) ∧ b.dtype = a.dtype
      ∧ b.dims = keptExtents key a.dims
      ∧ ∀ ks, List.Forall₂ (· < ·) ks b.dims →
        ∃ x, b.at? (ks.map Int.ofNat) = some x ∧ a.at? (sourcePlaces key a.dims ks) = some x := by
  obtain ⟨r, hr, h⟩ := bind_eq_ok.1 h
  replace h := pure_eq_ok.1 h
  unfold select at h
  split at h
  · cases h
  · next t ht =>
      cases h
      have hr' := isIn_of_resolve hr
      have hkey : ∃ entry ∈ key, entry.isPosition = false := by
        by_contra hall
        have hnone := (shape?_eq_none_iff hr).2 (by simpa using hall)
        rw [ht] at hnone
        cases hnone
      have hdims := Region.dims_of_shape? ht
      refine ⟨hkey, rfl, hdims.trans (keptExtents_eq hr).symm, fun ks hks => ?_⟩
      change List.Forall₂ (· < ·) ks t.dims at hks
      rw [hdims] at hks
      obtain ⟨i, hi, j, hj, rfl⟩ := Region.exists_keep_eq hr' hks
      refine ⟨_, at?_keep hr' ht hi hj, ?_⟩
      rw [at?_sourcePlaces hr hi hj, ← Storage.load_pick_places a.storage a.shape hi hj]

/-- Reading by a key, on a valid array whose extents are signed words. In words
of 64 bits no step goes wrong, for elements, rows and columns as well. There is
a result exactly if the key has one entry for each axis and each can be
followed. If all of them are positions it is the element there; otherwise it is
an array of the same type, with the extents of the slices and the elements that
their steps lead to. -/
theorem get_eq_reference (hvalid : a.IsValid) (ha : a.IsWordSized) :
    (∀ key : List AxisKey, (∀ entry ∈ key, entry.IsWord) →
      Checked.get a key = Checked.lift (a.get key)
      ∧ ((∃ sel, a.get key = .ok sel) ↔ List.Forall₂ AxisKey.IsAdmissible key a.dims)
      ∧ (∀ x, a.get key = .ok (.scalar x) →
        (∀ entry ∈ key, entry.isPosition = true) ∧ a.at? (sourcePlaces key a.dims []) = some x)
      ∧ ∀ b, a.get key = .ok (.array b) →
        (∃ entry ∈ key, entry.isPosition = false) ∧ b.dtype = a.dtype
        ∧ b.dims = keptExtents key a.dims
        ∧ ∀ ks, List.Forall₂ (· < ·) ks b.dims →
          ∃ x, b.at? (ks.map Int.ofNat) = some x ∧ a.at? (sourcePlaces key a.dims ks) = some x)
    ∧ (∀ index : List Int, (∀ i ∈ index, -2 ^ 63 ≤ i ∧ i < 2 ^ 63) →
      Checked.item a index = Checked.lift (a.item index)
      ∧ ∀ x, Checked.setScalar a (index.map .position) x = Checked.lift (a.setItem index x))
    ∧ ∀ (axis : Axis) (i : Int), -2 ^ 63 ≤ i ∧ i < 2 ^ 63 →
      Checked.line a axis i = Checked.lift (a.line axis i) := by
  refine ⟨fun key hkey => ⟨Checked.get_eq hvalid ha hkey, exists_get_iff,
    fun _ => get_eq_scalar, fun _ => get_eq_array⟩, fun index hindex => ?_,
    fun axis i hi => Checked.line_eq hvalid ha hi⟩
  exact ⟨Checked.item_eq hvalid ha hindex,
    Checked.setScalar_eq hvalid ha (List.forall_mem_map.2 hindex)⟩

/-- A row from its end, and every so many columns that one is left. -/
def sampleKey : List AxisKey := [.position (-1), .slice ⟨-3, some (-1), 2 ^ 64 - 1⟩]

def sampleMatrix : NumArray := ⟨.matrix 2 4, ⟨.i32, #[1, 2, 3, 4, 5, 6, 7, 8], none⟩⟩

theorem get_eq_reference_sampleMatrix :
    sampleMatrix.IsValid ∧ sampleMatrix.IsWordSized
      ∧ Checked.get sampleMatrix sampleKey = .ok (.array ⟨.vector 1, ⟨.i32, #[6], none⟩⟩)
      ∧ keptExtents sampleKey [2, 4] = [1] := by
  have hmade : ofPlanes [2, 4] .i32 #[1, 2, 3, 4, 5, 6, 7, 8] none = .ok sampleMatrix := by
    decide +kernel
  have hvalid := ofPlanes_isValid hmade
  have ha : sampleMatrix.IsWordSized := ⟨by decide, by decide⟩
  have hkey : ∀ entry ∈ sampleKey, entry.IsWord := by
    simp [sampleKey, AxisKey.IsWord]
  have hget : sampleMatrix.get sampleKey = .ok (.array ⟨.vector 1, ⟨.i32, #[6], none⟩⟩) := by
    decide +kernel
  obtain ⟨hchecked, -, -, harray⟩ := (get_eq_reference hvalid ha).1 sampleKey hkey
  exact ⟨hvalid, ha, by rw [hchecked, hget]; rfl, (harray _ hget).2.2.1.symm⟩

end NumArray

end DenseNumeric
