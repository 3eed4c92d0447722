import DenseNumeric.Proofs.Stacks

/-!
# Splitting and stacking

An axis is split into any number of parts that divides its extent evenly. The
parts are then of one shape, and the array is their stack: part `n` has the
elements from place `n * width` on, which is where it starts in the stack
(`cuts_isStack`). So splitting and stacking are inverse to each other, because
only one array is a stack of given parts, and because the parts of a stack are
determined by where they start.
-/

namespace DenseNumeric.NumArray

variable {a c : NumArray} {axis : Axis} {parts : List NumArray} {sections width n : Nat}

/-! ## Cuts -/

theorem cut_eq_rearrange (a : NumArray) (axis : Axis) (width n : Nat) :
    a.cut axis width n = a.rearrange (a.shape.withExtent axis width) fun i j =>
      match axis with
      | .rows => a.shape.offset (n * width + i) j
      | .cols => a.shape.offset i (n * width + j) := by
  obtain ⟨s, x⟩ := a
  cases axis with
  | rows => rfl
  | cols => cases s <;> rfl

@[simp] theorem shape_cut (a : NumArray) (axis : Axis) (width n : Nat) :
    (a.cut axis width n).shape = a.shape.withExtent axis width := by
  rw [cut_eq_rearrange]
  rfl

@[simp] theorem dtype_cut (a : NumArray) (axis : Axis) (width n : Nat) :
    (a.cut axis width n).dtype = a.dtype := by
  rw [cut_eq_rearrange]
  rfl

@[simp] theorem extent_cut (a : NumArray) (axis : Axis) (width n : Nat) :
    (a.cut axis width n).extent axis = width := by
  rw [extent, shape_cut, Shape.extent_withExtent]

@[simp] theorem extent_other_cut (a : NumArray) (axis : Axis) (width n : Nat) :
    (a.cut axis width n).extent axis.other = a.extent axis.other := by
  rw [extent, shape_cut, Shape.extent_other_withExtent, extent]

/-- Part `n` has the elements from place `n * width` on. -/
theorem entryOn_cut (a : NumArray) (n : Nat) {k l : Nat} (hk : k < width)
    (hl : l < a.extent axis.other) :
    (a.cut axis width n).entryOn axis k l = a.entryOn axis (n * width + k) l := by
  have hk' : k < (a.shape.withExtent axis width).extent axis := by
    rwa [Shape.extent_withExtent]
  have hl' : l < (a.shape.withExtent axis width).extent axis.other := by
    rwa [Shape.extent_other_withExtent]
  rw [cut_eq_rearrange]
  cases axis with
  | rows => exact entry_rearrange a _ hk' hl'
  | cols => exact entry_rearrange a _ hl' hk'

/-! ## Splitting -/

theorem split_eq_ok_iff :
    a.split axis sections = .ok parts
      ↔ (axis = .rows → a.shape.isMatrix = true) ∧ 0 < sections ∧ sections ∣ a.extent axis
        ∧ (List.range sections).map (a.cut axis (a.extent axis / sections)) = parts := by
  have hopen : a.split axis sections = .ok parts
      ↔ ¬sections = 0 ∧ ¬(axis = .rows ∧ ¬a.shape.isMatrix = true) ∧ ¬a.extent axis % sections ≠ 0
        ∧ (List.range sections).map (a.cut axis (a.extent axis / sections)) = parts := by
    cases axis <;> simp only [split, check_eq_ok, pure_eq_ok] <;> rfl
  rw [hopen, Nat.pos_iff_ne_zero, Nat.dvd_iff_mod_eq_zero]
  tauto

theorem exists_split_iff (axis : Axis) :
    (∃ parts, a.split axis sections = .ok parts)
      ↔ (axis = .rows → a.shape.isMatrix = true) ∧ 0 < sections ∧ sections ∣ a.extent axis := by
  simp only [split_eq_ok_iff]
  constructor
  · rintro ⟨parts, hm, hpos, hdvd, -⟩
    exact ⟨hm, hpos, hdvd⟩
  · rintro ⟨hm, hpos, hdvd⟩
    exact ⟨_, hm, hpos, hdvd, rfl⟩

/-! ## Parts of equal extent -/

theorem partStart_of_extent {width : Nat} (h : ∀ part ∈ parts, part.extent axis = width)
    (hn : n ≤ parts.length) : partStart axis parts n = n * width := by
  have hmap : (parts.take n).map (·.extent axis) = (parts.take n).map fun _ => width :=
    List.map_congr_left fun part hpart => h part (List.mem_of_mem_take hpart)
  rw [partStart, hmap, List.map_const', List.sum_replicate, List.length_take, Nat.min_eq_left hn,
    smul_eq_mul]

/-- An array is the stack of the parts it is cut into. -/
theorem cuts_isStack (hm : axis = .rows → a.shape.isMatrix = true)
    (hextent : sections * width = a.extent axis) :
    IsStack axis ((List.range sections).map (a.cut axis width)) a := by
  have hparts : ∀ part ∈ (List.range sections).map (a.cut axis width),
      part.extent axis = width := by
    simp
  have hlength : ((List.range sections).map (a.cut axis width)).length = sections := by simp
  refine ⟨by simp, ?_, ?_, fun n hn k hk l hl => ?_⟩
  · simpa [extent] using fun _ _ => (Shape.withExtent_extent hm).symm
  · have htotal := partStart_of_extent hparts le_rfl
    rw [partStart, List.take_length, hlength, hextent] at htotal
    exact htotal.symm
  · rw [hparts _ (List.getElem_mem hn)] at hk
    rw [partStart_of_extent hparts hn.le, List.getElem_map, List.getElem_range]
    exact (entryOn_cut a n hk hl).symm

/-- The parts of a split, stacked, are the array again. -/
theorem stack_of_split (ha : a.IsValid) (h : a.split axis sections = .ok parts) :
    parts.length = sections
      ∧ (∀ part ∈ parts, part.shape.IsPositive ∧ ∀ part' ∈ parts, part.shape = part'.shape)
      ∧ stack axis parts = .ok a := by
  have hvalid := split_isValid ha h
  obtain ⟨hm, -, hdvd, rfl⟩ := split_eq_ok_iff.1 h
  refine ⟨by simp, fun part hpart => ⟨(hvalid part hpart).shape, ?_⟩, ?_⟩
  · obtain ⟨n, -, rfl⟩ := List.mem_map.1 hpart
    simp
  · exact (stack_eq_ok_iff hvalid).2 ⟨ha, cuts_isStack hm (Nat.mul_div_cancel' hdvd)⟩

/-- A part of a stack is cut out again if all parts have one shape. -/
theorem IsStack.cut_eq (h : IsStack axis parts c) (hc : c.IsValid)
    (hparts : ∀ part ∈ parts, part.IsValid)
    (hm : axis = .rows → ∀ part ∈ parts, part.shape.isMatrix)
    (hextent : ∀ part ∈ parts, part.extent axis = width) (hn : n < parts.length) :
    c.cut axis width n = parts[n] := by
  have hmem := List.getElem_mem hn
  have hwidth : 0 < width := by
    rw [← hextent _ hmem]
    exact extent_pos (hparts _ hmem) axis
  have hshape : (c.cut axis width n).shape = parts[n].shape := by
    rw [shape_cut, h.shape _ hmem, Shape.withExtent_withExtent, ← hextent _ hmem]
    exact Shape.withExtent_extent fun haxis => hm haxis _ hmem
  have hdtype : (c.cut axis width n).dtype = parts[n].dtype := by
    rw [dtype_cut, h.dtype _ hmem]
  refine ext_of_entryOn axis (cut_isValid hc hwidth n) (hparts _ hmem) hdtype hshape
    fun k hk l hl => ?_
  rw [extent_cut] at hk
  rw [extent_other_cut] at hl
  rw [entryOn_cut c n hk hl, ← partStart_of_extent hextent hn.le]
  exact h.entry n hn k (by rwa [hextent _ hmem]) l hl

/-- A stack of parts of one shape, split, gives the parts again. -/
theorem split_of_stack (hparts : ∀ part ∈ parts, part.IsValid)
    (hshape : ∀ part ∈ parts, ∀ part' ∈ parts, part.shape = part'.shape)
    (hm : axis = .rows → ∀ part ∈ parts, part.shape.isMatrix) (hstack : stack axis parts = .ok c) :
    c.split axis parts.length = .ok parts := by
  obtain ⟨hc, h⟩ := (stack_eq_ok_iff hparts).1 hstack
  have hne := h.ne_nil hc
  obtain ⟨first, hfirst⟩ := List.exists_mem_of_ne_nil parts hne
  have hextent : ∀ part ∈ parts, part.extent axis = first.extent axis := fun part hpart => by
    rw [extent, extent, hshape part hpart first hfirst]
  have htotal : c.extent axis = parts.length * first.extent axis := by
    rw [h.extent, ← partStart_of_extent hextent le_rfl, partStart, List.take_length]
  have hlength := List.length_pos_of_ne_nil hne
  -- the extent is the number of parts times that of one part, so each cut has that extent again
  refine split_eq_ok_iff.2 ⟨fun haxis => h.isMatrix hc (.inl haxis), hlength, ?_, ?_⟩
  · exact htotal ▸ Nat.dvd_mul_right _ _
  · rw [htotal, Nat.mul_div_cancel_left _ hlength]
    refine List.ext_getElem (by simp) fun n _ hn => ?_
    rw [List.getElem_map, List.getElem_range]
    exact h.cut_eq hc hparts hm hextent hn

/-- Splitting a valid array, and stacking valid arrays of one type and shape. If
an array is split, there are as many parts as asked for, all of one shape and
not empty, and stacked they are the array again. The arrays, stacked and split
into as many parts, are themselves again; one below the other, if they are
matrices. Columns are split by every number that divides theirs, and rows by
every number that divides theirs if the array is a matrix. -/
theorem split_stack_inverse (ha : a.IsValid) (hparts : ∀ part ∈ parts, part.IsValid)
    (hne : parts ≠ []) (hsame : ∀ part ∈ parts, ∀ part' ∈ parts,
      part.dtype = part'.dtype ∧ part.shape = part'.shape) :
    (∀ sections cuts, a.hsplit sections = .ok cuts → cuts.length = sections
      ∧ (∀ part ∈ cuts, part.shape.IsPositive ∧ ∀ part' ∈ cuts, part.shape = part'.shape)
      ∧ hstack cuts = .ok a)
    ∧ (∀ sections cuts, a.vsplit sections = .ok cuts → cuts.length = sections
      ∧ (∀ part ∈ cuts, part.shape.IsPositive ∧ ∀ part' ∈ cuts, part.shape = part'.shape)
      ∧ vstack cuts = .ok a)
    ∧ (∃ c, hstack parts = .ok c ∧ c.hsplit parts.length = .ok parts)
    ∧ ((∀ part ∈ parts, part.shape.isMatrix) →
      ∃ c, vstack parts = .ok c ∧ c.vsplit parts.length = .ok parts)
    ∧ ∀ sections, ((∃ cuts, a.hsplit sections = .ok cuts) ↔ 1 ≤ sections ∧ sections ∣ a.ncols)
      ∧ ((∃ cuts, a.vsplit sections = .ok cuts)
        ↔ a.shape.isMatrix ∧ 1 ≤ sections ∧ sections ∣ a.nrows) := by
  have hshape : ∀ part ∈ parts, ∀ part' ∈ parts, part.shape = part'.shape :=
    fun part hpart part' hpart' => (hsame part hpart part' hpart').2
  have hstack (axis : Axis) : ∃ c, stack axis parts = .ok c := by
    refine (exists_stack_iff axis).2 ⟨hne, fun part hpart part' hpart' => ⟨?_, fun _ => ?_⟩⟩
    · exact (hsame part hpart part' hpart').1
    · rw [hshape part hpart part' hpart']
  refine ⟨fun _ _ h => stack_of_split ha h, fun _ _ h => stack_of_split ha h, ?_, fun hm => ?_,
    fun sections => ⟨?_, ?_⟩⟩
  · obtain ⟨c, hc⟩ := hstack .cols
    exact ⟨c, hc, split_of_stack hparts hshape nofun hc⟩
  · obtain ⟨c, hc⟩ := hstack .rows
    exact ⟨c, hc, split_of_stack hparts hshape (fun _ => hm) hc⟩
  · exact (exists_split_iff .cols).trans (and_iff_right nofun)
  · exact (exists_split_iff .rows).trans (and_congr_left fun _ => forall_prop_of_true rfl)

/-- A matrix of two rows and four columns. -/
def wideMatrix : NumArray :=
  ⟨.matrix 2 4, .ofComplex
    #[⟨1, -1⟩, ⟨0 / 0, 2⟩, 0, ⟨0, 1⟩, ⟨-0, 5⟩, ⟨1 / 0, 0⟩, ⟨7, 0 / 0⟩, ⟨8, -0⟩] .c64⟩

theorem wideMatrix_isValid : wideMatrix.IsValid := isValid_mk_ofComplex (by decide) rfl _

/-- Two matrices of one shape. -/
def equalParts : List NumArray :=
  [⟨.matrix 1 2, .ofComplex #[⟨0 / 0, 1⟩, ⟨-0, 2⟩] .c64⟩,
    ⟨.matrix 1 2, .ofComplex #[⟨3, -1⟩, ⟨1 / 0, -0⟩] .c64⟩]

theorem split_stack_inverse_wideMatrix :
    (wideMatrix.IsValid ∧ (∀ part ∈ equalParts, part.IsValid) ∧ equalParts ≠ [] ∧
      ∀ part ∈ equalParts, ∀ part' ∈ equalParts,
        part.dtype = part'.dtype ∧ part.shape = part'.shape) ∧
    (∃ cuts, wideMatrix.hsplit 2 = .ok cuts ∧ cuts.length = 2 ∧ hstack cuts = .ok wideMatrix) ∧
    (¬∃ cuts, wideMatrix.hsplit 3 = .ok cuts) ∧
    (∃ c, hstack equalParts = .ok c ∧ c.hsplit 2 = .ok equalParts) ∧
    ∃ c, vstack equalParts = .ok c ∧ c.vsplit 2 = .ok equalParts := by
  have hparts : ∀ part ∈ equalParts, part.IsValid :=
    List.forall_mem_cons.2 ⟨isValid_mk_ofComplex (by decide) rfl _,
      List.forall_mem_singleton.2 (isValid_mk_ofComplex (by decide) rfl _)⟩
  have hne : equalParts ≠ [] := List.cons_ne_nil _ _
  have hsame : ∀ part ∈ equalParts, ∀ part' ∈ equalParts,
      part.dtype = part'.dtype ∧ part.shape = part'.shape := by
    decide
  obtain ⟨hsplit, -, hstack, hstack', hok⟩ :=
    split_stack_inverse wideMatrix_isValid hparts hne hsame
  refine ⟨⟨wideMatrix_isValid, hparts, hne, hsame⟩, ?_, ?_, hstack, hstack' (by decide)⟩
  · obtain ⟨cuts, hcuts⟩ := (hok 2).1.2 (by decide)
    obtain ⟨hlength, -, hwhole⟩ := hsplit 2 cuts hcuts
    exact ⟨cuts, hcuts, hlength, hwhole⟩
  · exact fun h => absurd ((hok 3).1.1 h) (by decide)

end DenseNumeric.NumArray
