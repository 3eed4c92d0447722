import DenseNumeric.Proofs.Splits

/-!
# Transposed stacks and splits

Stacking matrices side by side and stacking their transposes one below the
other give the same, up to a transposition, although the elements are gathered
in different ways. The one list can be stacked exactly if the other can. The
same is true of splitting. Seen along an axis, a transpose has the elements of
the array on the other axis, and nothing else is needed here.
-/

namespace DenseNumeric.NumArray

variable {a b c : NumArray} {axis : Axis} {parts : List NumArray} {sections : Nat}

/-! ## Stacks -/

theorem shape_transpose_eq_withExtent (ha : a.shape.isMatrix = true) (hb : b.shape.isMatrix = true)
    (h : b.extent axis.other = a.extent axis.other) :
    a.transpose.shape
      = b.transpose.shape.withExtent axis.other (a.transpose.extent axis.other) := by
  rw [extent_transpose ha, shape_transpose_of_isMatrix ha, shape_transpose_of_isMatrix hb]
  cases axis with
  | rows => exact congrArg (Shape.matrix · a.nrows) h.symm
  | cols => exact congrArg (Shape.matrix a.ncols) h.symm

/-- A transposed stack is a stack of the transposed parts. -/
theorem IsStack.transpose (h : IsStack axis parts c) (hc : c.shape.isMatrix = true)
    (hm : ∀ part ∈ parts, part.shape.isMatrix = true) :
    IsStack axis.other (parts.map NumArray.transpose) c.transpose := by
  have hextent {a : NumArray} (ha : a.shape.isMatrix = true) :
      a.transpose.extent axis.other = a.extent axis := by
    rw [extent_transpose ha, Axis.other_other]
  refine h.map (fun part hpart => ?_) (fun part hpart => ?_)
    (fun part hpart => hextent (hm part hpart)) (hextent hc) fun n hn k hk l hl => ?_
  · rw [dtype_transpose, dtype_transpose, h.dtype part hpart]
  · exact shape_transpose_eq_withExtent hc (hm part hpart) (h.extent_other hpart)
  · have hmem := List.getElem_mem hn
    rw [extent_transpose hc, Axis.other_other] at hl
    have hplace : partStart axis parts n + k < c.extent axis := by
      rw [h.extent]
      exact partStart_add_lt hn hk
    rw [entryOn_transpose hc hplace hl,
      entryOn_transpose (hm _ hmem) hk (by rwa [h.extent_other hmem])]
    exact h.entry n hn k hk l hl

theorem fits_transpose_iff (ha : a.shape.isMatrix = true) (hb : b.shape.isMatrix = true) :
    a.transpose.Fits axis.other b.transpose ↔ a.Fits axis b := by
  rw [fits_iff_of_isMatrix (isMatrix_transpose ha) (isMatrix_transpose hb),
    fits_iff_of_isMatrix ha hb, dtype_transpose, dtype_transpose, extent_transpose ha,
    extent_transpose hb, Axis.other_other]

theorem exists_stack_transpose_iff (axis : Axis)
    (hm : ∀ part ∈ parts, part.shape.isMatrix = true) :
    (∃ c, stack axis.other (parts.map transpose) = .ok c) ↔ ∃ c, stack axis parts = .ok c := by
  rw [exists_stack_iff, exists_stack_iff]
  refine and_congr (not_congr List.map_eq_nil_iff) ?_
  simp only [List.forall_mem_map]
  refine forall₂_congr fun part hpart => forall₂_congr fun part' hpart' => ?_
  exact fits_transpose_iff (hm part hpart) (hm part' hpart')

/-- Transposition exchanges the axes of a stack. -/
theorem stack_transpose (hparts : ∀ part ∈ parts, part.IsValid)
    (hm : ∀ part ∈ parts, part.shape.isMatrix = true) (h : stack axis parts = .ok c) :
    stack axis.other (parts.map transpose) = .ok c.transpose := by
  have hmatrix := isMatrix_of_stack hparts hm h
  obtain ⟨hc, h⟩ := (stack_eq_ok_iff hparts).1 h
  have hparts' : ∀ part ∈ parts.map transpose, part.IsValid :=
    List.forall_mem_map.2 fun part hpart => transpose_isValid (hparts part hpart)
  exact (stack_eq_ok_iff hparts').2 ⟨transpose_isValid hc, h.transpose hmatrix hm⟩

/-! ## Splits -/

theorem exists_split_transpose_iff (axis : Axis) (sections : Nat)
    (hm : a.shape.isMatrix = true) :
    (∃ parts, a.transpose.split axis.other sections = .ok parts)
      ↔ ∃ parts, a.split axis sections = .ok parts := by
  have hm' := isMatrix_transpose hm
  rw [exists_split_iff, exists_split_iff, extent_transpose hm, Axis.other_other]
  exact and_congr_left fun _ => iff_of_true (fun _ => hm') fun _ => hm

/-- Transposition exchanges the axes of a split. The transposed parts are not
looked at: they are stacked to the transposed array, so it is split into them. -/
theorem split_transpose (ha : a.IsValid) (hm : a.shape.isMatrix = true)
    (h : a.split axis sections = .ok parts) :
    a.transpose.split axis.other sections = .ok (parts.map transpose) := by
  have hvalid := split_isValid ha h
  obtain ⟨hlength, hsame, hstack⟩ := stack_of_split ha h
  have hmatrix : ∀ part ∈ parts, part.shape.isMatrix = true := fun part hpart => by
    obtain ⟨-, -, -, rfl⟩ := split_eq_ok_iff.1 h
    obtain ⟨n, -, rfl⟩ := List.mem_map.1 hpart
    rw [shape_cut, Shape.isMatrix_withExtent, hm, Bool.or_true]
  have hvalid' : ∀ part ∈ parts.map transpose, part.IsValid :=
    List.forall_mem_map.2 fun part hpart => transpose_isValid (hvalid part hpart)
  have hmatrix' : ∀ part ∈ parts.map transpose, part.shape.isMatrix = true :=
    List.forall_mem_map.2 fun part hpart => isMatrix_transpose (hmatrix part hpart)
  have hsame' : ∀ part ∈ parts.map transpose, ∀ part' ∈ parts.map transpose,
      part.shape = part'.shape := by
    refine List.forall_mem_map.2 fun part hpart => List.forall_mem_map.2 fun part' hpart' => ?_
    rw [shape_transpose_of_isMatrix (hmatrix part hpart),
      shape_transpose_of_isMatrix (hmatrix part' hpart'), ncols, nrows, ncols, nrows,
      (hsame part hpart).2 part' hpart']
  have hsplit := split_of_stack hvalid' hsame' (fun _ => hmatrix')
    (stack_transpose hvalid hmatrix hstack)
  rwa [List.length_map, hlength] at hsplit

/-- Matrices are stacked side by side exactly if their transposes are stacked one
below the other, and then the one stack is the transpose of the other. The
columns of a matrix are split into a number of parts exactly if the rows of its
transpose are, and then the parts of the one are the transposes of the parts of
the other, in order. -/
theorem transpose_stack_split (hparts : ∀ part ∈ parts, part.IsValid)
    (hm : ∀ part ∈ parts, part.shape.isMatrix) (ha : a.IsValid) (hma : a.shape.isMatrix) :
    ((∃ c, hstack parts = .ok c) ↔ ∃ c, vstack (parts.map transpose) = .ok c)
    ∧ (∀ c, hstack parts = .ok c → vstack (parts.map transpose) = .ok c.transpose)
    ∧ ∀ sections, ((∃ cuts, a.hsplit sections = .ok cuts)
        ↔ ∃ cuts, a.transpose.vsplit sections = .ok cuts)
      ∧ ∀ cuts, a.hsplit sections = .ok cuts →
        a.transpose.vsplit sections = .ok (cuts.map transpose) := by
  have hstack : (∃ c, vstack (parts.map transpose) = .ok c) ↔ ∃ c, hstack parts = .ok c :=
    exists_stack_transpose_iff .cols hm
  have hsplit (sections : Nat) : (∃ cuts, a.transpose.vsplit sections = .ok cuts)
      ↔ ∃ cuts, a.hsplit sections = .ok cuts := exists_split_transpose_iff .cols sections hma
  refine ⟨hstack.symm, fun c h => ?_, fun sections => ⟨(hsplit sections).symm, fun cuts h => ?_⟩⟩
  · change stack .cols parts = .ok c at h
    exact stack_transpose hparts hm h
  · exact split_transpose ha hma h

theorem transpose_stack_split_columnParts :
    ((∀ part ∈ columnParts, part.IsValid) ∧ (∀ part ∈ columnParts, part.shape.isMatrix) ∧
      wideMatrix.IsValid ∧ wideMatrix.shape.isMatrix) ∧
    (∃ c, hstack columnParts = .ok c ∧ c.shape = .matrix 2 3 ∧
      vstack (columnParts.map transpose) = .ok c.transpose) ∧
    ∃ cuts, wideMatrix.hsplit 2 = .ok cuts ∧ cuts.length = 2 ∧
      wideMatrix.transpose.vsplit 2 = .ok (cuts.map transpose) := by
  have hm : ∀ part ∈ columnParts, part.shape.isMatrix := by decide
  obtain ⟨-, hstack, hsplit⟩ :=
    transpose_stack_split columnParts_isValid hm wideMatrix_isValid rfl
  exact ⟨⟨columnParts_isValid, hm, wideMatrix_isValid, rfl⟩, ⟨_, rfl, rfl, hstack _ rfl⟩,
    ⟨_, rfl, rfl, (hsplit 2).2 _ rfl⟩⟩

end DenseNumeric.NumArray
