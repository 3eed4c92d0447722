import DenseNumeric.Proofs.Stacks

/-!
# Products of stacks

A product is distributed over the parts of a stack exactly, and not only up to
rounding. An element of a product is made from one row of the left factor and
one column of the right factor. In a stack of rows, or of columns, such a line
is a line of one of the parts, so the same terms are added up in the same order
(`IsStack.productOn`). The products of parts have one type, and the checks of
the shapes pass for the stack exactly if they pass for every part.

A part of a stack of rows is the left factor of a product, and a part of a stack
of columns the right factor. Seen along the axis, there is no difference: an
element has the place of its part along the axis, and the place of the other
factor across it.
-/

namespace DenseNumeric.NumArray

variable {a a' b b' c : NumArray} {axis : Axis} {parts : List NumArray} {i i' j j' k k' l : Nat}

/-! ## Products of matrices -/

/-- The product of two matrices that share the inner extent. -/
def product (a b : NumArray) : NumArray :=
  ⟨.matrix a.nrows b.ncols, .ofComplex
    ((Shape.matrix a.nrows b.ncols).tabulate (a.productEntry b a.ncols)) (a.dtype.promote b.dtype)⟩

theorem matmul_eq_ok_iff : a.matmul b = .ok c
    ↔ (a.shape.isMatrix = true ∧ b.shape.isMatrix = true ∧ a.ncols = b.nrows)
      ∧ a.product b = c := by
  have hproduct {m k n : Nat} (ha : a.shape = .matrix m k) (hb : b.shape = .matrix k n) :
      a.matmul b = .ok (a.product b) := by
    rw [matmul_eq_ok ha hb, product, nrows, ncols, ncols, ha, hb]
    rfl
  constructor
  · intro h
    obtain ⟨⟨m, k, n⟩, hdims, -⟩ := bind_eq_ok.1 h
    obtain ⟨hleft, hright⟩ := productDims_eq_ok hdims
    have ha := Shape.eq_matrix_of_dims hleft
    have hb := Shape.eq_matrix_of_dims hright
    refine ⟨?_, Except.ok.inj ((hproduct ha hb).symm.trans h)⟩
    rw [ncols, nrows, ha, hb]
    exact ⟨rfl, rfl, rfl⟩
  · rintro ⟨⟨ha, hb, hinner⟩, rfl⟩
    exact hproduct (Shape.eq_matrix_of_isMatrix ha)
      ((Shape.eq_matrix_of_isMatrix hb).trans (congrArg (Shape.matrix · b.ncols) hinner.symm))

theorem entry_product (hi : i < a.nrows) (hj : j < b.ncols) : (a.product b).entry i j
    = (a.dtype.promote b.dtype).element (a.productEntry b a.ncols i j) :=
  entry_mk_tabulate _ _ hi hj

/-- An element is made from a row of the left factor and a column of the right
one, and from nothing else but the types of the factors. -/
theorem entry_product_congr (ha : a.dtype = a'.dtype) (hb : b.dtype = b'.dtype)
    (hinner : a.ncols = a'.ncols) (hi : i < a.nrows) (hj : j < b.ncols) (hi' : i' < a'.nrows)
    (hj' : j' < b'.ncols) (hrow : ∀ p < a.ncols, a.entry i p = a'.entry i' p)
    (hcol : ∀ p < a.ncols, b.entry p j = b'.entry p j') :
    (a.product b).entry i j = (a'.product b').entry i' j' := by
  have hsum : a.productEntry b a.ncols i j = a'.productEntry b' a'.ncols i' j' := by
    rw [productEntry, productEntry, isComplex, isComplex, isComplex, isComplex, ha, hb, ← hinner]
    refine if_congr Iff.rfl (dot_congr fun p hp => ?_) (congrArg Complex.ofReal
      (dot_congr fun p hp => ?_))
    · rw [hrow p hp, hcol p hp]
    · rw [hrow p hp, hcol p hp]
  rw [entry_product hi hj, entry_product hi' hj', hsum, ha, hb]

/-! ## Products along an axis -/

/-- The product of an array and a part of a stack: rows are multiplied from the
right, and columns from the left. -/
def matmulOn (axis : Axis) (a b : NumArray) : Except Error NumArray :=
  match axis with
  | .rows => b.matmul a
  | .cols => a.matmul b

def productOn (axis : Axis) (a b : NumArray) : NumArray :=
  match axis with
  | .rows => b.product a
  | .cols => a.product b

theorem matmulOn_eq_ok_iff (ha : a.shape.isMatrix = true) (axis : Axis) (b c : NumArray) :
    matmulOn axis a b = .ok c ↔
      (b.shape.isMatrix = true ∧ a.extent axis = b.extent axis.other) ∧ productOn axis a b = c := by
  cases axis with
  | rows =>
      refine matmul_eq_ok_iff.trans (and_congr_left fun _ => and_congr_right fun _ => ?_)
      exact (and_iff_right ha).trans eq_comm
  | cols => exact matmul_eq_ok_iff.trans (and_congr_left fun _ => and_iff_right ha)

theorem dtype_productOn (axis : Axis) (a b : NumArray) :
    (productOn axis a b).dtype = a.dtype.promote b.dtype := by
  cases axis with
  | rows => exact DType.promote_comm _ _
  | cols => rfl

@[simp] theorem extent_productOn (axis : Axis) (a b : NumArray) :
    (productOn axis a b).extent axis = b.extent axis := by
  cases axis <;> rfl

@[simp] theorem extent_other_productOn (axis : Axis) (a b : NumArray) :
    (productOn axis a b).extent axis.other = a.extent axis.other := by
  cases axis <;> rfl

theorem shape_productOn (axis : Axis) (a b b' : NumArray) :
    (productOn axis a b).shape
      = (productOn axis a b').shape.withExtent axis (b.extent axis) := by
  cases axis <;> rfl

theorem productOn_isValid (axis : Axis) (ha : a.IsValid) (hb : b.IsValid) :
    (productOn axis a b).IsValid := by
  cases axis with
  | rows =>
      exact isValid_mk_ofComplex (s := .matrix _ _) ⟨hb.shape.1, ha.shape.2⟩
        (Shape.size_tabulate _ _) _
  | cols =>
      exact isValid_mk_ofComplex (s := .matrix _ _) ⟨ha.shape.1, hb.shape.2⟩
        (Shape.size_tabulate _ _) _

/-- An element is made from the line of the part that it lies on. -/
theorem entryOn_productOn_congr (hdtype : b.dtype = b'.dtype)
    (hinner : a.extent axis = b.extent axis.other) (hinner' : a.extent axis = b'.extent axis.other)
    (hk : k < b.extent axis) (hk' : k' < b'.extent axis) (hl : l < a.extent axis.other)
    (hline : ∀ p < b.extent axis.other, b.entryOn axis k p = b'.entryOn axis k' p) :
    (productOn axis a b).entryOn axis k l = (productOn axis a b').entryOn axis k' l := by
  cases axis with
  | rows =>
      exact entry_product_congr hdtype rfl (hinner.symm.trans hinner') hk hl hk' hl hline
        fun _ _ => rfl
  | cols =>
      exact entry_product_congr rfl hdtype rfl hl hk hl hk' (fun _ _ => rfl)
        fun p hp => hline p (hinner ▸ hp)

/-! ## Stacks -/

/-- The product with a stack is the stack of the products with the parts. -/
theorem IsStack.productOn (h : IsStack axis parts c)
    (hinner : a.extent axis = c.extent axis.other) :
    IsStack axis (parts.map (a.productOn axis)) (a.productOn axis c) := by
  refine h.map (fun part hpart => ?_) (fun part _ => ?_)
    (fun part _ => extent_productOn axis a part) (extent_productOn axis a c)
    fun n hn k hk l hl => ?_
  · rw [dtype_productOn, dtype_productOn, h.dtype part hpart]
  · rw [extent_productOn]
    exact shape_productOn axis a c part
  · have hmem := List.getElem_mem hn
    have hplace : partStart axis parts n + k < c.extent axis := by
      rw [h.extent]
      exact partStart_add_lt hn hk
    rw [extent_other_productOn] at hl
    exact entryOn_productOn_congr (h.dtype _ hmem).symm hinner
      (hinner.trans (h.extent_other hmem).symm) hplace hk hl (h.entry n hn k hk)

theorem stack_productOn (ha : a.IsValid) (hparts : ∀ part ∈ parts, part.IsValid)
    (h : stack axis parts = .ok c) (hinner : a.extent axis = c.extent axis.other) :
    stack axis (parts.map (a.productOn axis)) = .ok (a.productOn axis c) := by
  obtain ⟨hc, h⟩ := (stack_eq_ok_iff hparts).1 h
  have hproducts : ∀ part ∈ parts.map (a.productOn axis), part.IsValid :=
    List.forall_mem_map.2 fun part hpart => productOn_isValid axis ha (hparts part hpart)
  exact (stack_eq_ok_iff hproducts).2 ⟨productOn_isValid axis ha hc, h.productOn hinner⟩

theorem matmulOn_of_stack (axis : Axis) (ha : a.IsValid) (hma : a.shape.isMatrix = true)
    (hparts : ∀ part ∈ parts, part.IsValid) (hm : ∀ part ∈ parts, part.shape.isMatrix = true)
    (hsame : ∀ part ∈ parts, ∀ part' ∈ parts, part.dtype = part'.dtype) :
    (stack axis parts >>= matmulOn axis a) = .ok c
      ↔ (parts.mapM (matmulOn axis a) >>= stack axis) = .ok c := by
  simp only [bind_eq_ok, matmulOn_eq_ok_iff hma, mapM_eq_ok_iff (matmulOn_eq_ok_iff hma axis)]
  constructor
  · rintro ⟨s, hs, ⟨-, hinner⟩, rfl⟩
    have hstack := ((stack_eq_ok_iff hparts).1 hs).2
    refine ⟨_, ⟨fun part hpart => ⟨hm part hpart, ?_⟩, rfl⟩, stack_productOn ha hparts hs hinner⟩
    rw [hinner, hstack.extent_other hpart]
  · -- the parts passed the checks of their products, so they have one extent across the axis
    rintro ⟨_, ⟨hfactors, rfl⟩, hproducts⟩
    have hne : parts ≠ [] := by
      rintro rfl
      cases axis <;> cases hproducts
    obtain ⟨first, hfirst⟩ := List.exists_mem_of_ne_nil parts hne
    obtain ⟨s, hs, hms, hinner⟩ := exists_stack_of_isMatrix hne hparts hm
      (fun part hpart => hsame part hpart first hfirst)
      fun part hpart => (hfactors part hpart).2.symm
    refine ⟨s, hs, ⟨hms, hinner.symm⟩, ?_⟩
    exact Except.ok.inj ((stack_productOn ha hparts hs hinner.symm).symm.trans hproducts)

/-- A matrix that is multiplied from the left with a stack of columns, or from the
right with a stack of rows, gives the stack of its products with the parts. For
parts of one type, one side gives an array exactly if the other does. -/
theorem matmul_of_stack (ha : a.IsValid) (hma : a.shape.isMatrix)
    (hparts : ∀ part ∈ parts, part.IsValid) (hm : ∀ part ∈ parts, part.shape.isMatrix)
    (hsame : ∀ part ∈ parts, ∀ part' ∈ parts, part.dtype = part'.dtype) :
    (∀ c, (hstack parts >>= a.matmul) = .ok c ↔ (parts.mapM a.matmul >>= hstack) = .ok c)
    ∧ ∀ c, (vstack parts >>= (·.matmul a)) = .ok c ↔ (parts.mapM (·.matmul a) >>= vstack) = .ok c :=
  ⟨fun _ => matmulOn_of_stack .cols ha hma hparts hm hsame,
    fun _ => matmulOn_of_stack .rows ha hma hparts hm hsame⟩

/-- An integer matrix; its products with complex columns have a wider type than either. -/
def leftFactor : NumArray := ⟨.matrix 3 2, .ofElements #[(1 : Int32), 2, -3, 4, 0, 6]⟩

theorem matmul_of_stack_columnParts :
    (leftFactor.IsValid ∧ leftFactor.shape.isMatrix ∧ (∀ part ∈ columnParts, part.IsValid) ∧
      (∀ part ∈ columnParts, part.shape.isMatrix) ∧
      ∀ part ∈ columnParts, ∀ part' ∈ columnParts, part.dtype = part'.dtype) ∧
    (∃ c, (hstack columnParts >>= leftFactor.matmul) = .ok c ∧ c.shape = .matrix 3 3 ∧
      c.dtype = .c128 ∧ (columnParts.mapM leftFactor.matmul >>= hstack) = .ok c) ∧
    ∃ c, (vstack (columnParts.map transpose) >>= (·.matmul leftFactor.transpose)) = .ok c ∧
      ((columnParts.map transpose).mapM (·.matmul leftFactor.transpose) >>= vstack) = .ok c := by
  have hvalid : leftFactor.IsValid := isValid_mk_ofElements (by decide) rfl
  have hm : ∀ part ∈ columnParts, part.shape.isMatrix := by decide
  have hsame : ∀ part ∈ columnParts, ∀ part' ∈ columnParts, part.dtype = part'.dtype := by
    decide
  have hrowParts : ∀ part ∈ columnParts.map transpose, part.IsValid :=
    List.forall_mem_map.2 fun part hpart => transpose_isValid (columnParts_isValid part hpart)
  obtain ⟨hcolumns, -⟩ := matmul_of_stack hvalid rfl columnParts_isValid hm hsame
  obtain ⟨-, hrows⟩ :=
    matmul_of_stack (transpose_isValid hvalid) rfl hrowParts (by decide) (by decide)
  exact ⟨⟨hvalid, rfl, columnParts_isValid, hm, hsame⟩,
    ⟨_, rfl, rfl, rfl, (hcolumns _).1 rfl⟩, ⟨_, rfl, (hrows _).1 rfl⟩⟩

end DenseNumeric.NumArray
