import DenseNumeric.Proofs.Assignment
import DenseNumeric.Proofs.StackedParts

/-!
# Indexing a transpose

A key for a transpose has the entries of a key for the matrix, the other way
round. It leads to the region with rows and columns exchanged, in which the
transpose has the same elements; they are only met in another order. So what is
selected is transposed, and if one of the axes is gone, when rows and columns
cannot be told apart any more, it is the same.

One direction is shown of each statement. The other is the same statement about
the transpose, since a matrix transposed twice is itself.
-/

namespace DenseNumeric

/-- The region with rows and columns exchanged. -/
def Region.transpose (r : Region) : Region := ⟨r.cols, r.rows⟩

/-- What was selected, with rows and columns exchanged. -/
def Selection.transpose : Selection → Selection
  | .scalar x => .scalar x
  | .array b => .array b.transpose

namespace NumArray

variable {a b : NumArray} {row col : AxisKey} {r : Region} {sel : Selection} {k l : Nat}

theorem resolve_eq_of_matrix {m n : Nat} (hs : a.shape = .matrix m n) (row col : AxisKey) :
    a.resolve [row, col] = do return ⟨← row.resolve m, ← col.resolve n⟩ := by
  unfold resolve
  rw [hs]

theorem pick_places_isValid (ha : a.IsValid) {t : Shape} (ht : t.IsPositive)
    (hsize : t.numel = r.rows.count * r.cols.count) :
    IsValid ⟨t, a.storage.pick (r.places a.shape)⟩ :=
  ⟨ht, (Storage.size_pick _ _).trans ((Region.size_places _ _).trans hsize.symm),
    Storage.pick_isValid ha.storage _⟩

/-- A region without one of its axes keeps its shape. -/
theorem shape?_transpose (h : r.rows.collapsed = true ∨ r.cols.collapsed = true) :
    r.transpose.shape? = r.shape? := by
  obtain ⟨⟨first, step, m, collapsed⟩, ⟨first', step', n, collapsed'⟩⟩ := r
  cases collapsed <;> cases collapsed'
  · cases h <;> contradiction
  · rfl
  · rfl
  · rfl

theorem transpose_select_of_collapsed (h : r.rows.collapsed = true ∨ r.cols.collapsed = true) :
    (a.select r).transpose = a.select r := by
  obtain ⟨⟨first, step, m, collapsed⟩, ⟨first', step', n, collapsed'⟩⟩ := r
  cases collapsed <;> cases collapsed'
  · cases h <;> contradiction
  · rfl
  · rfl
  · rfl

section Matrix

variable (hm : a.shape.isMatrix = true)
include hm

/-- A matrix transposed twice is itself. -/
theorem transpose_transpose (ha : a.IsValid) : a.transpose.transpose = a := by
  have hshape := shape_transpose_of_isMatrix hm
  have hshape' := shape_transpose hshape
  refine ext_of_entry (transpose_isValid (transpose_isValid ha)) ha
    ((dtype_transpose _).trans (dtype_transpose a))
    (hshape'.trans (Shape.eq_matrix_of_isMatrix hm).symm) fun i hi j hj => ?_
  rw [nrows, hshape'] at hi
  rw [ncols, hshape'] at hj
  rw [entry_transpose hshape hi hj, entry_transpose (Shape.eq_matrix_of_isMatrix hm) hj hi]

theorem resolve_transpose (h : a.resolve [row, col] = .ok r) :
    a.transpose.resolve [col, row] = .ok r.transpose := by
  obtain ⟨_, _, rows, cols, ⟨⟩, hrow, hcol, rfl⟩ :=
    (resolve_matrix_eq_ok_iff (Shape.eq_matrix_of_isMatrix hm)).1 h
  exact (resolve_matrix_eq_ok_iff (shape_transpose_of_isMatrix hm)).2
    ⟨col, row, cols, rows, rfl, hcol, hrow, rfl⟩

/-! ## Reading -/

/-- The elements of a region, met column by column in the transpose. -/
theorem loadComplex_pick_transpose (hr : r.IsIn a.shape) (hk : k < r.rows.count)
    (hl : l < r.cols.count) :
    (a.transpose.storage.pick (r.transpose.places a.transpose.shape)).loadComplex
        (l * r.rows.count + k)
      = (a.storage.pick (r.places a.shape)).loadComplex (k * r.cols.count + l) := by
  have htransposed := entry_pick_places a.transpose r.transpose
    (t := .matrix r.cols.count r.rows.count) rfl hl hk
  have hdirect := entry_pick_places a r (t := .matrix r.rows.count r.cols.count) rfl hk hl
  exact htransposed.trans ((entry_transpose (Shape.eq_matrix_of_isMatrix hm)
    (hr.cols.position_lt l hl) (hr.rows.position_lt k hk)).trans hdirect.symm)

/-- Elements along a single row or column are met in the same order. -/
theorem pick_transpose (ha : a.IsValid) (hr : r.IsIn a.shape)
    (h : r.rows.count = 1 ∨ r.cols.count = 1) :
    a.transpose.storage.pick (r.transpose.places a.transpose.shape)
      = a.storage.pick (r.places a.shape) := by
  have hsize : (r.transpose.places a.transpose.shape).size = (r.places a.shape).size := by
    simp only [Region.size_places, Region.transpose, Nat.mul_comm]
  refine Storage.ext_of_loadComplex (Storage.pick_isValid (transpose_isValid ha).storage _)
    (Storage.pick_isValid ha.storage _) (dtype_transpose a)
    (by rw [Storage.size_pick, Storage.size_pick, hsize]) fun p hp => ?_
  rw [Storage.size_pick, hsize, Region.size_places] at hp
  rcases h with hrows | hcols
  · rw [hrows, Nat.one_mul] at hp
    have hload := loadComplex_pick_transpose hm hr hr.rows.count_pos hp
    rwa [hrows, Nat.mul_one, Nat.zero_mul, Nat.add_zero, Nat.zero_add] at hload
  · rw [hcols, Nat.mul_one] at hp
    have hload := loadComplex_pick_transpose hm hr hp hr.cols.count_pos
    rwa [hcols, Nat.mul_one, Nat.zero_mul, Nat.add_zero, Nat.zero_add] at hload

theorem select_transpose (ha : a.IsValid) (hr : r.IsIn a.shape) :
    a.transpose.select r.transpose = (a.select r).transpose := by
  by_cases h : r.rows.collapsed = true ∨ r.cols.collapsed = true
  · have hpick := pick_transpose hm ha hr (h.imp hr.rows.count_eq_one hr.cols.count_eq_one)
    rw [transpose_select_of_collapsed h, select, select, shape?_transpose h, hpick]
  · -- both axes are kept, and the elements of two matrices are compared
    obtain ⟨hrows, hcols⟩ := not_or.1 h
    rw [Bool.not_eq_true] at hrows hcols
    have hshape : r.shape? = some (.matrix r.rows.count r.cols.count) := by
      rw [Region.shape?, hrows, hcols]
    have hshape' : r.transpose.shape? = some (.matrix r.cols.count r.rows.count) := by
      rw [Region.shape?, Region.transpose, hrows, hcols]
    have hb := pick_places_isValid (t := .matrix r.rows.count r.cols.count) ha
      ⟨hr.rows.count_pos, hr.cols.count_pos⟩ rfl
    have hc := pick_places_isValid (t := .matrix r.cols.count r.rows.count) (r := r.transpose)
      (transpose_isValid ha) ⟨hr.cols.count_pos, hr.rows.count_pos⟩ rfl
    rw [select, select, hshape, hshape']
    refine congrArg Selection.array (ext_of_entry hc (transpose_isValid hb) (dtype_transpose a) rfl
      fun l hl k hk => (loadComplex_pick_transpose hm hr hk hl).trans ?_)
    exact (entry_transpose (a := ⟨.matrix r.rows.count r.cols.count, _⟩) rfl hl hk).symm

/-- What a key selects, its entries exchanged select from the transpose. -/
theorem get_transpose (ha : a.IsValid) (h : a.get [row, col] = .ok sel) :
    a.transpose.get [col, row] = .ok sel.transpose := by
  obtain ⟨r, hr, rfl⟩ := get_eq_ok_iff.1 h
  exact get_eq_ok_iff.2 ⟨r.transpose, resolve_transpose hm hr,
    select_transpose hm ha (isIn_of_resolve hr)⟩

/-! ## Writing -/

theorem assigned_transpose (ha : a.IsValid) (h : a.resolve [row, col] = .ok r) (x : Scalar) :
    a.transpose.assigned r.transpose (fun _ => x) = (a.assigned r fun _ => x).transpose := by
  have hs := Shape.eq_matrix_of_isMatrix hm
  have hs' : (a.assigned r fun _ => x).shape = .matrix a.nrows a.ncols := hs
  have ht := shape_transpose hs
  have h' := resolve_transpose hm h
  refine ext_of_entry (assign_isValid (transpose_isValid ha) _ _)
    (transpose_isValid (assign_isValid ha _ _)) ?_ (ht.trans (shape_transpose hs').symm)
    fun j hj i hi => ?_
  · rw [dtype_transpose]
    exact (Storage.dtype_assign _ _ _).trans
      ((dtype_transpose a).trans (Storage.dtype_assign _ _ _).symm)
  · change j < a.transpose.shape.rows at hj
    change i < a.transpose.shape.cols at hi
    rw [ht] at hi hj
    rw [entry_transpose hs' hj hi]
    by_cases hmem : (∃ k < r.rows.count, r.rows.position k = i) ∧
        ∃ l < r.cols.count, r.cols.position l = j
    · obtain ⟨⟨k, hk, rfl⟩, l, hl, rfl⟩ := hmem
      rw [entry_assigned_const ha h x hk hl, ← dtype_transpose a]
      exact entry_assigned_const (transpose_isValid ha) h' x hl hk
    · rw [entry_assigned_of_not h _ hj hmem, ← entry_transpose hs hj hi]
      exact entry_assigned_of_not h' _ (by rwa [ncols, ht]) fun hmem' => hmem hmem'.symm

/-- A number is written to the transpose as it is to the matrix. -/
theorem setScalar_transpose (ha : a.IsValid) {x : Scalar} (h : a.setScalar [row, col] x = .ok b) :
    a.transpose.setScalar [col, row] x = .ok b.transpose := by
  obtain ⟨r, hr, h⟩ := bind_eq_ok.1 h
  obtain rfl := pure_eq_ok.1 h
  exact bind_eq_ok.2 ⟨r.transpose, resolve_transpose hm hr,
    congrArg Except.ok (assigned_transpose hm ha hr x)⟩

/-! ## Rows and columns -/

/-- A row of the transpose is a column of the matrix, and fails as it does. -/
theorem row_transpose (ha : a.IsValid) (j : Int) : a.transpose.row j = a.col j := by
  have hall := AxisKey.resolve_all ha.shape.1
  have hcol := resolve_eq_of_matrix (Shape.eq_matrix_of_isMatrix hm) .all (.position j)
  have hrow := resolve_eq_of_matrix (shape_transpose_of_isMatrix hm) (.position j) .all
  simp only [nrows, ncols, hall] at hcol hrow
  simp only [row, col, line, isMatrix_transpose hm, hm, not_true_eq_false, if_false, hcol, hrow]
  cases hrun : (AxisKey.position j).resolve a.shape.cols with
  | error e => rfl
  | ok run =>
      have hr : a.resolve [.all, .position j] = .ok ⟨⟨0, 1, a.shape.rows, false⟩, run⟩ := by
        rw [hcol, hrun]
        rfl
      have hcollapsed : run.collapsed = true := AxisKey.collapsed_of_resolve hrun
      have hr' := isIn_of_resolve hr
      refine congrArg Except.ok (congrArg₂ NumArray.mk ?_
        (pick_transpose hm ha hr' (.inr (hr'.cols.count_eq_one hcollapsed))))
      simp only [Region.shape?, hcollapsed, Option.getD_some]

end Matrix

/-- What is done to a matrix by a key, and then seen transposed, is done to the
transpose by the key with its entries exchanged. Reading succeeds for both or
for neither, and then it is the same scalar or the array transposed, which is
the same vector if one of the entries is a position. Writing a number leads to
the transpose of what it leads to in the matrix. Transposing twice does nothing,
and the rows of the transpose are the columns, for every index. -/
theorem transpose_exchanges_keys (ha : a.IsValid) (hm : a.shape.isMatrix = true) :
    (∀ row col : AxisKey,
      ((∃ sel, a.transpose.get [col, row] = .ok sel) ↔ ∃ sel, a.get [row, col] = .ok sel) ∧
      (∀ sel, a.get [row, col] = .ok sel →
        a.transpose.get [col, row] = .ok sel.transpose ∧
          (row.isPosition = true ∨ col.isPosition = true → sel.transpose = sel)) ∧
      ∀ x : Scalar,
        ((∃ c, a.transpose.set [col, row] (.scalar x) = .ok c)
          ↔ ∃ b, a.set [row, col] (.scalar x) = .ok b) ∧
        ∀ b, a.set [row, col] (.scalar x) = .ok b →
          a.transpose.set [col, row] (.scalar x) = .ok b.transpose) ∧
    a.transpose.transpose = a ∧
    ∀ j, a.transpose.row j = a.col j ∧ a.transpose.col j = a.row j := by
  have htwice := transpose_transpose hm ha
  have hvalid := transpose_isValid ha
  have hm' := isMatrix_transpose hm
  refine ⟨fun row col => ⟨⟨?_, ?_⟩, fun sel h => ⟨get_transpose hm ha h, fun hkey => ?_⟩,
    fun x => ⟨⟨?_, ?_⟩, fun b h => setScalar_transpose hm ha h⟩⟩, htwice,
    fun j => ⟨row_transpose hm ha j, ?_⟩⟩
  · rintro ⟨sel, h⟩
    exact ⟨_, htwice ▸ get_transpose hm' hvalid h⟩
  · rintro ⟨sel, h⟩
    exact ⟨_, get_transpose hm ha h⟩
  · obtain ⟨r, hr, rfl⟩ := get_eq_ok_iff.1 h
    obtain ⟨_, _, rows, cols, ⟨⟩, hrow, hcol, rfl⟩ :=
      (resolve_matrix_eq_ok_iff (Shape.eq_matrix_of_isMatrix hm)).1 hr
    refine transpose_select_of_collapsed ?_
    rwa [AxisKey.collapsed_of_resolve hrow, AxisKey.collapsed_of_resolve hcol]
  · rintro ⟨c, h⟩
    exact ⟨_, htwice ▸ setScalar_transpose hm' hvalid h⟩
  · rintro ⟨b, h⟩
    exact ⟨_, setScalar_transpose hm ha h⟩
  · have hrow := row_transpose hm' hvalid j
    rw [htwice] at hrow
    exact hrow.symm

theorem transpose_exchanges_keys_sampleMatrix :
    sampleMatrix.IsValid ∧ sampleMatrix.shape.isMatrix = true ∧
    (∃ sel, sampleMatrix.get sampleKey = .ok sel ∧
      sampleMatrix.transpose.get sampleKey.reverse = .ok sel) ∧
    sampleMatrix.transpose.transpose = sampleMatrix ∧
    sampleMatrix.transpose.row (-1) = sampleMatrix.col (-1) := by
  have hmade : ofPlanes [2, 4] .i32 #[1, 2, 3, 4, 5, 6, 7, 8] none = .ok sampleMatrix := by
    decide +kernel
  have hget : sampleMatrix.get sampleKey = .ok (.array ⟨.vector 1, ⟨.i32, #[6], none⟩⟩) := by
    decide +kernel
  have ha := ofPlanes_isValid hmade
  obtain ⟨hkeys, htwice, hlines⟩ := transpose_exchanges_keys ha rfl
  obtain ⟨-, hread, -⟩ := hkeys (.position (-1)) (.slice ⟨-3, some (-1), 2 ^ 64 - 1⟩)
  obtain ⟨hsel, hsame⟩ := hread _ hget
  rw [hsame (.inl rfl)] at hsel
  exact ⟨ha, rfl, ⟨_, hget, hsel⟩, htwice, (hlines (-1)).1⟩

end NumArray

end DenseNumeric
