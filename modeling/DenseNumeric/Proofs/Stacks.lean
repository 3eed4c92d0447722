import DenseNumeric.Proofs.Extents

/-!
# Stacks

What a stack is, said without the places of its elements: an array is a stack
of parts along an axis if its extent there is the sum of theirs and if every
part has its elements, moved behind the parts before it (`IsStack`). Only one
array is a stack of given parts. Stacking gives this array for every list of
parts that fit each other, and for no other list (`stack_eq_ok_iff`,
`exists_stack_iff`).

The two axes differ in how the elements are gathered. One below the other, the
parts are copied as they are; side by side, each row of the stack is gathered
from the rows of the parts. Behind the two lemmas that say so, `entry_stackOf_rows`
and `entry_stackOf_cols`, no proof looks at places any more.
-/

namespace DenseNumeric.NumArray

variable {a b c first : NumArray} {axis : Axis} {rest parts : List NumArray} {n k l : Nat}

/-! ## Stacks of parts -/

/-- Where a part of a stack starts. -/
def partStart (axis : Axis) (parts : List NumArray) (n : Nat) : Nat :=
  ((parts.take n).map (·.extent axis)).sum

/-- The array is made of the parts, one behind the other along an axis. -/
structure IsStack (axis : Axis) (parts : List NumArray) (c : NumArray) : Prop where
  dtype : ∀ part ∈ parts, part.dtype = c.dtype
  shape : ∀ part ∈ parts, c.shape = part.shape.withExtent axis (c.extent axis)
  extent : c.extent axis = (parts.map (·.extent axis)).sum
  entry : ∀ n (hn : n < parts.length), ∀ k < parts[n].extent axis, ∀ l < c.extent axis.other,
    c.entryOn axis (partStart axis parts n + k) l = parts[n].entryOn axis k l

theorem partStart_add_le (axis : Axis) (hn : n < parts.length) :
    partStart axis parts n + parts[n].extent axis ≤ (parts.map (·.extent axis)).sum := by
  have hsplit := List.sum_take_add_sum_drop (parts.map (·.extent axis)) n
  rw [← List.map_take, ← List.map_drop, List.drop_eq_getElem_cons hn, List.map_cons,
    List.sum_cons] at hsplit
  rw [partStart]
  omega

theorem partStart_add_lt (hn : n < parts.length) (hk : k < parts[n].extent axis) :
    partStart axis parts n + k < (parts.map (·.extent axis)).sum :=
  Nat.lt_of_lt_of_le (Nat.add_lt_add_left hk _) (partStart_add_le axis hn)

/-- A place below a sum lies in one of the summands. -/
theorem exists_sum_take_add_eq {xs : List Nat} {p : Nat} (h : p < xs.sum) :
    ∃ n, ∃ hn : n < xs.length, ∃ k < xs[n], (xs.take n).sum + k = p := by
  induction xs generalizing p with
  | nil => cases h
  | cons x xs ih =>
      by_cases hx : p < x
      · exact ⟨0, Nat.zero_lt_succ _, p, hx, Nat.zero_add p⟩
      · rw [List.sum_cons] at h
        obtain ⟨n, hn, k, hk, hp⟩ := ih (p := p - x) (by omega)
        refine ⟨n + 1, Nat.succ_lt_succ hn, k, hk, ?_⟩
        rw [List.take_succ_cons, List.sum_cons]
        omega

namespace IsStack

theorem exists_part (h : IsStack axis parts c) {p : Nat} (hp : p < c.extent axis) :
    ∃ n, ∃ hn : n < parts.length, ∃ k < parts[n].extent axis, partStart axis parts n + k = p := by
  rw [h.extent] at hp
  obtain ⟨n, hn, k, hk, heq⟩ := exists_sum_take_add_eq hp
  rw [List.length_map] at hn
  rw [List.getElem_map] at hk
  rw [← List.map_take] at heq
  exact ⟨n, hn, k, hk, heq⟩

theorem ne_nil (h : IsStack axis parts c) (hc : c.IsValid) : parts ≠ [] := by
  rintro rfl
  exact absurd h.extent (Nat.ne_of_gt (extent_pos hc axis))

/-- Parts make up one array only. -/
theorem unique (ha : IsStack axis parts a) (hb : IsStack axis parts b) (hva : a.IsValid)
    (hvb : b.IsValid) : a = b := by
  obtain ⟨part, hpart⟩ := List.exists_mem_of_ne_nil parts (ha.ne_nil hva)
  have hdtype : a.dtype = b.dtype := (ha.dtype part hpart).symm.trans (hb.dtype part hpart)
  have hextent : a.extent axis = b.extent axis := ha.extent.trans hb.extent.symm
  have hshape : a.shape = b.shape := by
    rw [ha.shape part hpart, hb.shape part hpart, hextent]
  refine ext_of_entryOn axis hva hvb hdtype hshape fun p hp l hl => ?_
  -- no place is left between the parts or behind them
  obtain ⟨n, hn, k, hk, rfl⟩ := ha.exists_part hp
  rw [ha.entry n hn k hk l hl, hb.entry n hn k hk l (by rwa [NumArray.extent, ← hshape])]

theorem extent_other (h : IsStack axis parts c) {part : NumArray} (hpart : part ∈ parts) :
    part.extent axis.other = c.extent axis.other := by
  rw [NumArray.extent, NumArray.extent, h.shape part hpart, Shape.extent_other_withExtent]

/-- Parts that are changed one by one make up a stack, on any axis, if every part
keeps its extent and what it has is found behind the parts before it. -/
theorem map {axis' : Axis} {d : NumArray} {f : NumArray → NumArray} (h : IsStack axis parts c)
    (hdtype : ∀ part ∈ parts, (f part).dtype = d.dtype)
    (hshape : ∀ part ∈ parts, d.shape = (f part).shape.withExtent axis' (d.extent axis'))
    (hextent : ∀ part ∈ parts, (f part).extent axis' = part.extent axis)
    (hd : d.extent axis' = c.extent axis)
    (hentry : ∀ n (hn : n < parts.length), ∀ k < parts[n].extent axis,
      ∀ l < d.extent axis'.other,
        d.entryOn axis' (partStart axis parts n + k) l = (f parts[n]).entryOn axis' k l) :
    IsStack axis' (parts.map f) d := by
  refine ⟨List.forall_mem_map.2 hdtype, List.forall_mem_map.2 hshape, ?_, fun n hn k hk l hl => ?_⟩
  · rw [hd, h.extent, List.map_map]
    exact congrArg List.sum (List.map_congr_left fun part hpart => (hextent part hpart).symm)
  · rw [List.length_map] at hn
    rw [List.getElem_map] at hk ⊢
    have hstart : partStart axis' (parts.map f) n = partStart axis parts n := by
      rw [partStart, ← List.map_take, List.map_map]
      exact congrArg List.sum (List.map_congr_left fun part hpart =>
        hextent part (List.mem_of_mem_take hpart))
    rw [hstart]
    exact hentry n hn k (by rwa [← hextent _ (List.getElem_mem hn)]) l hl

/-- Matrices make up a matrix and, one below the other, so do vectors. -/
theorem isMatrix (h : IsStack axis parts c) (hc : c.IsValid)
    (hm : axis = .rows ∨ ∀ part ∈ parts, part.shape.isMatrix = true) :
    c.shape.isMatrix = true := by
  obtain ⟨part, hpart⟩ := List.exists_mem_of_ne_nil parts (h.ne_nil hc)
  rw [h.shape part hpart, Shape.isMatrix_withExtent, Bool.or_eq_true, decide_eq_true_iff]
  exact hm.imp_right fun hm => hm part hpart

end IsStack

/-! ## Stacking -/

/-- The parts in a stack along an axis, if they fit each other. -/
def stack (axis : Axis) (parts : List NumArray) : Except Error NumArray :=
  match axis with
  | .rows => vstack parts
  | .cols => hstack parts

/-- Two arrays can be parts of one stack: they have one type, and their shapes
differ along the axis at most. -/
structure Fits (axis : Axis) (a b : NumArray) : Prop where
  dtype : a.dtype = b.dtype
  shape : ∀ n, a.shape.withExtent axis n = b.shape.withExtent axis n

theorem fits_rows_iff : a.Fits .rows b ↔ a.dtype = b.dtype ∧ a.ncols = b.ncols := by
  constructor
  · exact fun h => ⟨h.dtype, Shape.withExtent_rows_eq_iff.1 (h.shape 0)⟩
  · exact fun h => ⟨h.1, fun _ => Shape.withExtent_rows_eq_iff.2 h.2⟩

theorem fits_cols_iff :
    a.Fits .cols b ↔ a.dtype = b.dtype ∧ a.ndim = b.ndim ∧ a.nrows = b.nrows := by
  constructor
  · exact fun h => ⟨h.dtype, Shape.withExtent_cols_eq_iff.1 (h.shape 0)⟩
  · exact fun h => ⟨h.1, fun _ => Shape.withExtent_cols_eq_iff.2 h.2⟩

/-- A row of a stack of parts side by side. -/
def stackRow (dtype : DType) (parts : List NumArray) (i : Nat) : Storage :=
  .concat dtype (parts.map (·.rowElements i))

/-- The runs that a stack is gathered from: the parts or, side by side, its rows. -/
def stackRuns (axis : Axis) (dtype : DType) (rows : Nat) (parts : List NumArray) : List Storage :=
  match axis with
  | .rows => parts.map storage
  | .cols => (List.range rows).map (stackRow dtype parts)

/-- The stack of parts that fit the first one. -/
def stackOf (axis : Axis) (first : NumArray) (parts : List NumArray) : NumArray :=
  ⟨first.shape.withExtent axis (parts.map (·.extent axis)).sum,
    .concat first.dtype (stackRuns axis first.dtype first.nrows parts)⟩

theorem fits_of_stack (h : stack axis (first :: rest) = .ok c) :
    ∀ part ∈ first :: rest, part.Fits axis first := by
  intro part hpart
  cases axis with
  | rows =>
      obtain ⟨dtype, hdtype, h⟩ := bind_eq_ok.1 h
      have hfirst := commonDType_eq_ok hdtype first List.mem_cons_self
      dsimp only at h
      split at h
      · cases h
      · next hcols =>
          refine fits_rows_iff.2 ⟨(commonDType_eq_ok hdtype part hpart).trans hfirst.symm, ?_⟩
          simpa using List.find?_eq_none.1 hcols part hpart
  | cols =>
      obtain ⟨dtype, hdtype, h⟩ := bind_eq_ok.1 h
      have hfirst := commonDType_eq_ok hdtype first List.mem_cons_self
      dsimp only at h
      split at h
      · cases h
      · next hrows =>
          refine fits_cols_iff.2 ⟨(commonDType_eq_ok hdtype part hpart).trans hfirst.symm, ?_⟩
          simpa using List.find?_eq_none.1 hrows part hpart

theorem commonDType_eq (h : ∀ part ∈ parts, part.dtype = first.dtype) :
    commonDType first parts = .ok first.dtype := by
  have hfind : parts.find? (·.dtype ≠ first.dtype) = none := by simpa using h
  rw [commonDType, hfind]

theorem stack_eq_stackOf (h : ∀ part ∈ first :: rest, part.Fits axis first) :
    stack axis (first :: rest) = .ok (stackOf axis first (first :: rest)) := by
  have hdtype := commonDType_eq fun part hpart => (h part hpart).dtype
  cases axis with
  | rows =>
      have hcols : (first :: rest).find? (·.ncols ≠ first.ncols) = none := by
        simpa using fun part hpart => (fits_rows_iff.1 (h part hpart)).2
      refine bind_eq_ok.2 ⟨_, hdtype, ?_⟩
      dsimp only
      rw [hcols]
      refine congrArg (fun rows => Except.ok (NumArray.mk (.matrix rows first.ncols) _)) ?_
      exact foldl_add_eq_sum_map _ nrows
  | cols =>
      have hrows : (first :: rest).find?
          (fun part => part.ndim ≠ first.ndim ∨ part.nrows ≠ first.nrows) = none := by
        simpa using fun part hpart => (fits_cols_iff.1 (h part hpart)).2
      refine bind_eq_ok.2 ⟨_, hdtype, ?_⟩
      dsimp only
      rw [hrows]
      -- all parts of all rows in one list, or the parts of each row and then the rows
      refine congrArg Except.ok (congrArg₂ NumArray.mk ?_ (Storage.concat_flatMap _ _ _))
      rw [foldl_add_eq_sum_map]
      unfold nrows
      cases first.shape <;> rfl

theorem stack_eq_ok_iff_stackOf :
    stack axis parts = .ok c ↔ ∃ first ∈ parts.head?,
      (∀ part ∈ parts, part.Fits axis first) ∧ stackOf axis first parts = c := by
  cases parts with
  | nil =>
      refine iff_of_false (fun h => ?_) (by simp)
      cases axis <;> cases h
  | cons first rest =>
      simp only [List.head?_cons, Option.mem_some_iff, exists_eq_left']
      constructor
      · intro h
        have hfits := fits_of_stack h
        rw [stack_eq_stackOf hfits] at h
        exact ⟨hfits, Except.ok.inj h⟩
      · rintro ⟨hfits, rfl⟩
        exact stack_eq_stackOf hfits

/-- A list of arrays can be stacked exactly if it is not empty and its arrays
fit each other. -/
theorem exists_stack_iff (axis : Axis) :
    (∃ c, stack axis parts = .ok c)
      ↔ parts ≠ [] ∧ ∀ part ∈ parts, ∀ part' ∈ parts, part.Fits axis part' := by
  simp only [stack_eq_ok_iff_stackOf]
  constructor
  · rintro ⟨-, first, hfirst, hfits, rfl⟩
    refine ⟨fun h => by simp [h] at hfirst, fun part hpart part' hpart' => ?_⟩
    obtain ⟨hdtype, hshape⟩ := hfits part' hpart'
    exact ⟨(hfits part hpart).dtype.trans hdtype.symm, fun n =>
      ((hfits part hpart).shape n).trans (hshape n).symm⟩
  · rintro ⟨hne, hfits⟩
    obtain ⟨first, rest, rfl⟩ := List.exists_cons_of_ne_nil hne
    exact ⟨_, first, rfl, fun part hpart => hfits part hpart first List.mem_cons_self, rfl⟩

/-! ## Elements of a stack -/

/-- One below the other, the parts follow each other as they are. -/
theorem entry_stackOf_rows (hparts : ∀ part ∈ parts, part.IsValid)
    (hfits : ∀ part ∈ parts, part.Fits .rows first) (hn : n < parts.length)
    (hk : k < parts[n].nrows) (hl : l < first.ncols) :
    (stackOf .rows first parts).entry (partStart .rows parts n + k) l = parts[n].entry k l := by
  have hcols : ∀ part ∈ parts, part.ncols = first.ncols := fun part hpart =>
    (fits_rows_iff.1 (hfits part hpart)).2
  have hstart : ((parts.take n).map fun part => part.storage.size).sum
      = partStart .rows parts n * first.ncols := by
    rw [partStart, ← List.sum_map_mul_right]
    refine congrArg List.sum (List.map_congr_left fun part hpart => ?_)
    have hmem := List.mem_of_mem_take hpart
    rw [(hparts part hmem).size, ← hcols part hmem]
    rfl
  have hmem := List.getElem_mem hn
  have hcol : parts[n].shape.cols = first.ncols := hcols _ hmem
  have hsize : parts[n].shape.offset k l < parts[n].storage.size :=
    offset_lt_size_of_isValid (hparts _ hmem) hk (by rwa [ncols, hcol])
  have hplace : (partStart .rows parts n + k) * first.ncols + l
      = partStart .rows parts n * first.ncols + parts[n].shape.offset k l := by
    rw [Shape.offset, hcol, Nat.add_mul, Nat.add_assoc]
  have hread := Storage.loadComplex_concat_map
    (fun part hpart => ⟨(hparts part hpart).storage, (hfits part hpart).dtype⟩) hn hsize
  rwa [hstart, ← hplace] at hread

theorem loadComplex_rowElements (a : NumArray) (i : Nat) {j : Nat} (hj : j < a.ncols) :
    (a.rowElements i).loadComplex j = a.entry i j := by
  have hentry := entry_rearrange a (s := .vector a.ncols) (fun _ j => a.shape.offset i j)
    Nat.one_pos hj
  rwa [entry, Shape.offset, Nat.zero_mul, Nat.zero_add] at hentry

theorem size_stackRow (dtype : DType) (parts : List NumArray) (i : Nat) :
    (stackRow dtype parts i).size = (parts.map ncols).sum := by
  rw [stackRow, Storage.size_concat, List.map_map]
  exact congrArg List.sum (List.map_congr_left fun part _ => size_rowElements part i)

section StackRow

variable {dtype : DType} (h : ∀ part ∈ parts, part.IsValid ∧ part.dtype = dtype)
include h

theorem rowElements_isValid (i : Nat) :
    ∀ part ∈ parts, (part.rowElements i).IsValid ∧ (part.rowElements i).dtype = dtype :=
  fun part hpart => ⟨Storage.pick_isValid (h part hpart).1.storage _, (h part hpart).2⟩

theorem stackRow_isValid (i : Nat) : (stackRow dtype parts i).IsValid :=
  Storage.concat_isValid (List.forall_mem_map.2 (rowElements_isValid h i))

theorem loadComplex_stackRow (i : Nat) (hn : n < parts.length) (hk : k < parts[n].ncols) :
    (stackRow dtype parts i).loadComplex (partStart .cols parts n + k) = parts[n].entry i k := by
  have hk' : k < (parts[n].rowElements i).size := by rwa [size_rowElements]
  have hread := Storage.loadComplex_concat_map (rowElements_isValid h i) hn hk'
  simp only [size_rowElements] at hread
  exact hread.trans (loadComplex_rowElements _ i hk)

end StackRow

/-- Side by side, a row consists of the rows of the parts. -/
theorem entry_stackOf_cols (hparts : ∀ part ∈ parts, part.IsValid)
    (hfits : ∀ part ∈ parts, part.Fits .cols first) (hn : n < parts.length)
    (hk : k < parts[n].ncols) (hl : l < first.nrows) :
    (stackOf .cols first parts).entry l (partStart .cols parts n + k) = parts[n].entry l k := by
  have h : ∀ part ∈ parts, part.IsValid ∧ part.dtype = first.dtype := fun part hpart =>
    ⟨hparts part hpart, (hfits part hpart).dtype⟩
  have hl' : l < (List.range first.nrows).length := by rwa [List.length_range]
  have hcol : partStart .cols parts n + k
      < (stackRow first.dtype parts (List.range first.nrows)[l]).size := by
    rw [size_stackRow]
    exact partStart_add_lt hn hk
  have hread := Storage.loadComplex_concat_map (fun i _ => ⟨stackRow_isValid h i, rfl⟩) hl' hcol
  simp only [size_stackRow, List.map_const', List.sum_replicate, List.length_take, smul_eq_mul,
    Nat.min_eq_left hl'.le, List.getElem_range] at hread
  have hplace : (stackOf .cols first parts).shape.offset l (partStart .cols parts n + k)
      = l * (parts.map ncols).sum + (partStart .cols parts n + k) :=
    congrArg (l * · + _) (first.shape.extent_withExtent .cols _)
  rw [entry, hplace]
  exact hread.trans (loadComplex_stackRow h l hn hk)

theorem isStack_stackOf (hparts : ∀ part ∈ parts, part.IsValid)
    (hfits : ∀ part ∈ parts, part.Fits axis first) :
    IsStack axis parts (stackOf axis first parts) := by
  have hextent : (stackOf axis first parts).extent axis = (parts.map (·.extent axis)).sum :=
    first.shape.extent_withExtent axis _
  refine ⟨fun part hpart => (hfits part hpart).dtype, fun part hpart => ?_, hextent, ?_⟩
  · rw [hextent]
    exact ((hfits part hpart).shape _).symm
  · intro n hn k hk l hl
    rw [extent, stackOf, Shape.extent_other_withExtent] at hl
    cases axis with
    | rows => exact entry_stackOf_rows hparts hfits hn hk hl
    | cols => exact entry_stackOf_cols hparts hfits hn hk hl

theorem stack_isValid (hparts : ∀ part ∈ parts, part.IsValid) (h : stack axis parts = .ok c) :
    c.IsValid := by
  cases axis with
  | rows => exact vstack_isValid hparts h
  | cols => exact hstack_isValid hparts h

/-- Stacking gives the valid array that is made of the parts, if there is one. -/
theorem stack_eq_ok_iff (hparts : ∀ part ∈ parts, part.IsValid) :
    stack axis parts = .ok c ↔ c.IsValid ∧ IsStack axis parts c := by
  constructor
  · intro h
    obtain ⟨first, -, hfits, rfl⟩ := stack_eq_ok_iff_stackOf.1 h
    exact ⟨stack_isValid hparts h, isStack_stackOf hparts hfits⟩
  · -- an array that is made of the parts shows that they fit each other
    rintro ⟨hc, h⟩
    have hfits : ∀ part ∈ parts, ∀ part' ∈ parts, part.Fits axis part' := by
      refine fun part hpart part' hpart' => ⟨?_, fun n => ?_⟩
      · rw [h.dtype part hpart, h.dtype part' hpart']
      · rw [← part.shape.withExtent_withExtent axis (c.extent axis), ← h.shape part hpart,
          ← part'.shape.withExtent_withExtent axis (c.extent axis), ← h.shape part' hpart']
    obtain ⟨c', hc'⟩ := (exists_stack_iff axis).2 ⟨h.ne_nil hc, hfits⟩
    obtain ⟨first, -, hfirst, rfl⟩ := stack_eq_ok_iff_stackOf.1 hc'
    rw [hc', (isStack_stackOf hparts hfirst).unique h (stack_isValid hparts hc') hc]

/-! ## Stacks of matrices -/

/-- Of matrices it is enough to compare the extents across the axis. -/
theorem fits_iff_of_isMatrix (ha : a.shape.isMatrix = true) (hb : b.shape.isMatrix = true) :
    a.Fits axis b ↔ a.dtype = b.dtype ∧ a.extent axis.other = b.extent axis.other := by
  cases axis with
  | rows => exact fits_rows_iff
  | cols =>
      have hndim : a.ndim = b.ndim := by
        rw [ndim, ndim, Shape.eq_matrix_of_isMatrix ha, Shape.eq_matrix_of_isMatrix hb]
        rfl
      exact fits_cols_iff.trans (and_congr_right fun _ => and_iff_right hndim)

theorem isMatrix_of_stack (hparts : ∀ part ∈ parts, part.IsValid)
    (hm : ∀ part ∈ parts, part.shape.isMatrix = true) (h : stack axis parts = .ok c) :
    c.shape.isMatrix = true := by
  obtain ⟨hc, h⟩ := (stack_eq_ok_iff hparts).1 h
  exact h.isMatrix hc (.inr hm)

theorem exists_stack_of_isMatrix {dtype : DType} {width : Nat} (hne : parts ≠ [])
    (hparts : ∀ part ∈ parts, part.IsValid) (hm : ∀ part ∈ parts, part.shape.isMatrix = true)
    (hdtype : ∀ part ∈ parts, part.dtype = dtype)
    (hwidth : ∀ part ∈ parts, part.extent axis.other = width) :
    ∃ c, stack axis parts = .ok c ∧ c.shape.isMatrix = true ∧ c.extent axis.other = width := by
  have hfits : ∀ part ∈ parts, ∀ part' ∈ parts, part.Fits axis part' := by
    refine fun part hpart part' hpart' =>
      (fits_iff_of_isMatrix (hm part hpart) (hm part' hpart')).2 ⟨?_, ?_⟩
    · rw [hdtype part hpart, hdtype part' hpart']
    · rw [hwidth part hpart, hwidth part' hpart']
  obtain ⟨c, h⟩ := (exists_stack_iff axis).2 ⟨hne, hfits⟩
  obtain ⟨part, hpart⟩ := List.exists_mem_of_ne_nil parts hne
  have hstack := ((stack_eq_ok_iff hparts).1 h).2
  refine ⟨c, h, isMatrix_of_stack hparts hm h, ?_⟩
  rw [← hstack.extent_other hpart, hwidth part hpart]

/-! ## Sample parts -/

/-- A column and a matrix, with undefined components and negative zeros. -/
def columnParts : List NumArray :=
  [⟨.matrix 2 1, .ofComplex #[⟨0 / 0, 1⟩, ⟨-0, 2⟩] .c64⟩,
    ⟨.matrix 2 2, .ofComplex #[⟨3, 0⟩, ⟨4, 0 / 0⟩, ⟨5, -1⟩, ⟨6, -0⟩] .c64⟩]

theorem columnParts_isValid : ∀ part ∈ columnParts, part.IsValid :=
  List.forall_mem_cons.2 ⟨isValid_mk_ofComplex (by decide) rfl _,
    List.forall_mem_singleton.2 (isValid_mk_ofComplex (by decide) rfl _)⟩

end DenseNumeric.NumArray
