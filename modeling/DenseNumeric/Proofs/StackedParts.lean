import DenseNumeric.Proofs.Stacks

/-!
# Reading parts back

Nothing is lost in a stack, and nothing appears twice: every part is read back
from it, with its type, its shape and its elements, by the key of the rows or
columns behind all parts before it. The extents of the parts add up to the
extent of the stack, so there is nothing in between.

Below each other, vectors and matrices may be mixed. A vector is then one row
of the stack, and is read back as a matrix of one row.
-/

namespace DenseNumeric

/-! ## Keys of blocks -/

/-- The places from `first` on and before `bound`. -/
def AxisKey.between (first bound : Nat) : AxisKey := .slice ⟨first, some bound, 1⟩

/-- The key of a block of rows or columns, with all places across it. -/
def Shape.blockKey (s : Shape) (axis : Axis) (first bound : Nat) : List AxisKey :=
  match axis, s with
  | .rows, _ => [.between first bound, .all]
  | .cols, .vector _ => [.between first bound]
  | .cols, .matrix _ _ => [.all, .between first bound]

namespace AxisKey

variable {first bound length : Nat}

theorem resolve_between (hlt : first < bound) (hle : bound ≤ length) :
    (between first bound).resolve length = .ok ⟨first, 1, bound - first, false⟩ := by
  have hindex (i : Nat) : fromStart i length = i := if_neg (by omega)
  refine resolve_slice_eq_ok_iff.2
    ⟨Nat.one_pos, first, bound, hindex first, hindex bound, hlt, hle, ?_⟩
  rw [Nat.div_one, Nat.add_sub_cancel]

theorem resolve_all (h : 0 < length) : all.resolve length = .ok ⟨0, 1, length, false⟩ := by
  refine resolve_slice_eq_ok_iff.2 ⟨Nat.one_pos, 0, length, ?_, rfl, h, le_rfl, ?_⟩
  · rfl
  · rw [Nat.div_one, Nat.add_sub_cancel, Nat.sub_zero]

end AxisKey

namespace NumArray

variable {a b c : NumArray} {axis : Axis} {parts : List NumArray} {n first bound : Nat}

/-! ## Blocks -/

theorem entry_pick_places (a : NumArray) (r : Region) {t : Shape} (ht : t.cols = r.cols.count)
    {i j : Nat} (hi : i < r.rows.count) (hj : j < r.cols.count) :
    entry ⟨t, a.storage.pick (r.places a.shape)⟩ i j
      = a.entry (r.rows.position i) (r.cols.position j) := by
  have hentry := entry_rearrange a (s := .matrix r.rows.count r.cols.count)
    (fun i j => a.shape.offset (r.rows.position i) (r.cols.position j)) hi hj
  rw [entry, Shape.offset] at hentry ⊢
  rwa [ht]

/-- The region of a block of rows or columns. -/
def blockRegion (s : Shape) (axis : Axis) (first count : Nat) : Region :=
  match axis, s with
  | .rows, s => ⟨⟨first, 1, count, false⟩, ⟨0, 1, s.cols, false⟩⟩
  | .cols, .vector _ => ⟨.single 0, ⟨first, 1, count, false⟩⟩
  | .cols, .matrix m _ => ⟨⟨0, 1, m, false⟩, ⟨first, 1, count, false⟩⟩

theorem resolve_blockKey (ha : a.IsValid) (hm : axis = .rows → a.shape.isMatrix = true)
    (hlt : first < bound) (hle : bound ≤ a.extent axis) :
    a.resolve (a.shape.blockKey axis first bound)
      = .ok (blockRegion a.shape axis first (bound - first)) := by
  have hrows := AxisKey.resolve_all ha.shape.1
  have hcols := AxisKey.resolve_all ha.shape.2
  have hblock := AxisKey.resolve_between hlt hle
  rw [extent] at hblock
  cases hs : a.shape with
  | vector n =>
      rw [hs] at hm hblock
      cases axis with
      | rows => cases hm rfl
      | cols => exact (resolve_vector_eq_ok_iff hs).2 ⟨_, _, rfl, hblock, rfl⟩
  | matrix m n =>
      rw [hs] at hrows hcols hblock
      cases axis with
      | rows => exact (resolve_matrix_eq_ok_iff hs).2 ⟨_, _, _, _, rfl, hblock, hcols, rfl⟩
      | cols => exact (resolve_matrix_eq_ok_iff hs).2 ⟨_, _, _, _, rfl, hrows, hblock, rfl⟩

/-- A block has the elements of the array from its first row or column on. -/
theorem exists_get_blockKey (ha : a.IsValid) (hm : axis = .rows → a.shape.isMatrix = true)
    (hlt : first < bound) (hle : bound ≤ a.extent axis) :
    ∃ b, a.get (a.shape.blockKey axis first bound) = .ok (.array b) ∧ b.dtype = a.dtype
      ∧ b.shape = a.shape.withExtent axis (bound - first)
      ∧ ∀ k < bound - first, ∀ l < a.extent axis.other,
        b.entryOn axis k l = a.entryOn axis (first + k) l := by
  have hresolve := resolve_blockKey ha hm hlt hle
  have hshape : (blockRegion a.shape axis first (bound - first)).shape?
      = some (a.shape.withExtent axis (bound - first)) := by
    cases axis <;> cases a.shape <;> rfl
  have hcols : (a.shape.withExtent axis (bound - first)).cols
      = (blockRegion a.shape axis first (bound - first)).cols.count := by
    cases axis <;> cases a.shape <;> rfl
  refine ⟨⟨a.shape.withExtent axis (bound - first),
    a.storage.pick ((blockRegion a.shape axis first (bound - first)).places a.shape)⟩,
    ?_, rfl, rfl, fun k hk l hl => ?_⟩
  · rw [get, hresolve]
    show Except.ok (a.select _) = _
    rw [select, hshape]
  · have hentry {i j : Nat} := entry_pick_places a (i := i) (j := j) _ hcols
    rw [extent] at hl
    generalize a.shape = s at *
    cases axis with
    | rows =>
        refine (hentry hk hl).trans ?_
        simp [blockRegion, AxisRun.position, entryOn]
    | cols =>
        cases s with
        | vector n =>
            obtain rfl : l = 0 := Nat.lt_one_iff.1 hl
            refine (hentry Nat.one_pos hk).trans ?_
            simp [blockRegion, AxisRun.position, AxisRun.single, entryOn]
        | matrix m n =>
            refine (hentry hl hk).trans ?_
            simp [blockRegion, AxisRun.position, entryOn]

/-! ## Parts of a stack -/

/-- The array as a matrix. A vector is a matrix of one row. -/
def asMatrix (a : NumArray) : NumArray :=
  match a.shape with
  | .vector n => ⟨.matrix 1 n, a.storage⟩
  | .matrix _ _ => a

theorem asMatrix_eq (a : NumArray) : a.asMatrix = ⟨.matrix a.nrows a.ncols, a.storage⟩ := by
  obtain ⟨s, x⟩ := a
  cases s <;> rfl

/-- A part as it lies in a stack. -/
def inStack (axis : Axis) (part : NumArray) : NumArray :=
  match axis with
  | .rows => part.asMatrix
  | .cols => part

theorem shape_inStack (axis : Axis) (part : NumArray) :
    (part.inStack axis).shape = part.shape.withExtent axis (part.extent axis) := by
  cases axis with
  | rows =>
      rw [inStack, asMatrix_eq]
      rfl
  | cols => exact (Shape.withExtent_extent (by simp)).symm

theorem inStack_isValid (axis : Axis) (ha : a.IsValid) : (a.inStack axis).IsValid := by
  cases axis with
  | rows =>
      rw [inStack, asMatrix_eq]
      exact ⟨ha.shape, ha.size, ha.storage⟩
  | cols => exact ha

theorem dtype_inStack (axis : Axis) (part : NumArray) : (part.inStack axis).dtype = part.dtype := by
  cases axis with
  | rows =>
      rw [inStack, asMatrix_eq]
      rfl
  | cols => rfl

theorem entryOn_inStack (axis : Axis) (part : NumArray) (k l : Nat) :
    (part.inStack axis).entryOn axis k l = part.entryOn axis k l := by
  cases axis with
  | rows =>
      rw [inStack, asMatrix_eq]
      rfl
  | cols => rfl

/-- The block behind the parts before it is the part. -/
theorem get_part (hparts : ∀ part ∈ parts, part.IsValid) (h : stack axis parts = .ok c)
    (hn : n < parts.length) :
    c.get (c.shape.blockKey axis (partStart axis parts n)
        (partStart axis parts n + parts[n].extent axis))
      = .ok (.array (parts[n].inStack axis)) := by
  obtain ⟨hc, h⟩ := (stack_eq_ok_iff hparts).1 h
  have hmem := List.getElem_mem hn
  have hvalid := hparts _ hmem
  have hlt := Nat.lt_add_of_pos_right (n := partStart axis parts n) (extent_pos hvalid axis)
  have hle : partStart axis parts n + parts[n].extent axis ≤ c.extent axis := by
    rw [h.extent]
    exact partStart_add_le axis hn
  obtain ⟨b, hb, hdtype, hshape, hentry⟩ :=
    exists_get_blockKey hc (fun haxis => h.isMatrix hc (.inl haxis)) hlt hle
  rw [Nat.add_sub_cancel_left] at hshape hentry
  have hshape' : b.shape = (parts[n].inStack axis).shape := by
    rw [hshape, h.shape _ hmem, Shape.withExtent_withExtent, shape_inStack]
  have heq : b = parts[n].inStack axis := by
    refine ext_of_entryOn axis (select_isValid hc hb) (inStack_isValid axis hvalid) ?_ hshape' ?_
    · rw [hdtype, ← h.dtype _ hmem, dtype_inStack]
    · intro k hk l hl
      rw [extent, hshape, Shape.extent_withExtent] at hk
      rw [extent, hshape, Shape.extent_other_withExtent] at hl
      rw [hentry k hk l hl, h.entry n hn k hk l hl, entryOn_inStack]
  rw [hb, heq]

/-- Stacks of valid arrays. Arrays are stacked side by side exactly if there is
one, and all have one type, one rank and one number of rows; one below the
other exactly if there is one, and all have one type and one number of columns.
In either stack the extents of the parts add up, and a part is read back from
behind the parts before it: all its rows and columns, and no others. -/
theorem get_of_stack (hparts : ∀ part ∈ parts, part.IsValid) :
    ((∃ c, hstack parts = .ok c) ↔ parts ≠ [] ∧ ∀ a ∈ parts, ∀ b ∈ parts,
      a.dtype = b.dtype ∧ a.ndim = b.ndim ∧ a.nrows = b.nrows)
    ∧ ((∃ c, vstack parts = .ok c) ↔ parts ≠ [] ∧ ∀ a ∈ parts, ∀ b ∈ parts,
      a.dtype = b.dtype ∧ a.ncols = b.ncols)
    ∧ (∀ c, hstack parts = .ok c → c.ncols = (parts.map ncols).sum
      ∧ ∀ n (hn : n < parts.length),
        c.get (c.shape.blockKey .cols ((parts.take n).map ncols).sum
            (((parts.take n).map ncols).sum + parts[n].ncols)) = .ok (.array parts[n]))
    ∧ ∀ c, vstack parts = .ok c → c.nrows = (parts.map nrows).sum
      ∧ ∀ n (hn : n < parts.length),
        c.get (c.shape.blockKey .rows ((parts.take n).map nrows).sum
            (((parts.take n).map nrows).sum + parts[n].nrows))
          = .ok (.array parts[n].asMatrix) := by
  have hcols : (∃ c, hstack parts = .ok c) ↔ _ := exists_stack_iff .cols
  have hrows : (∃ c, vstack parts = .ok c) ↔ _ := exists_stack_iff .rows
  simp only [fits_cols_iff] at hcols
  simp only [fits_rows_iff] at hrows
  refine ⟨hcols, hrows, fun c h => ?_, fun c h => ?_⟩
  · change stack .cols parts = .ok c at h
    exact ⟨((stack_eq_ok_iff hparts).1 h).2.extent, fun n hn => get_part hparts h hn⟩
  · change stack .rows parts = .ok c at h
    exact ⟨((stack_eq_ok_iff hparts).1 h).2.extent, fun n hn => get_part hparts h hn⟩

/-- A matrix, and a vector below it. -/
def rowParts : List NumArray :=
  [⟨.matrix 2 2, .ofElements #[(1 : Int32), 2, 3, 4]⟩, ⟨.vector 2, .ofElements #[(5 : Int32), 6]⟩]

theorem get_of_stack_columnParts_rowParts :
    ((∀ part ∈ columnParts, part.IsValid) ∧ ∀ part ∈ rowParts, part.IsValid) ∧
    (∃ c, hstack columnParts = .ok c ∧ c.ncols = 3 ∧
      c.get [.all, .between 1 3] = .ok (.array columnParts[1])) ∧
    ∃ c, vstack rowParts = .ok c ∧ c.nrows = 3 ∧
      c.get [.between 2 3, .all] = .ok (.array ⟨.matrix 1 2, .ofElements #[(5 : Int32), 6]⟩) := by
  have hrows : ∀ part ∈ rowParts, part.IsValid :=
    List.forall_mem_cons.2 ⟨isValid_mk_ofElements (by decide) rfl,
      List.forall_mem_singleton.2 (isValid_mk_ofElements (by decide) rfl)⟩
  obtain ⟨-, -, hcols, -⟩ := get_of_stack columnParts_isValid
  obtain ⟨-, -, -, hrow⟩ := get_of_stack hrows
  exact ⟨⟨columnParts_isValid, hrows⟩, ⟨_, rfl, rfl, (hcols _ rfl).2 1 (by decide)⟩,
    ⟨_, rfl, rfl, (hrow _ rfl).2 1 (by decide)⟩⟩

end NumArray

end DenseNumeric
