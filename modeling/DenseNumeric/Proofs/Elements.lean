import DenseNumeric.NumArray.Elementwise
import DenseNumeric.NumArray.Product
import DenseNumeric.Proofs.StorageAccess
import DenseNumeric.Proofs.ValidArray

/-!
# Elements of arrays

What the elements of a result are, row by column: of an elementwise operation,
of a product and of a transpose. An operation that computes quantizes each
element once, to the type of the result (`DType.element`); a transpose moves
elements and leaves them as they are.
-/

namespace DenseNumeric

/-! ## Types of results -/

@[simp] theorem DType.promote_self (d : DType) : d.promote d = d := by
  cases d <;> rfl

/-- The common type of two operands does not depend on their order. -/
theorem DType.promote_comm (d d' : DType) : d.promote d' = d'.promote d := by
  cases d <;> cases d' <;> rfl

/-! ## Sums of products -/

section Sums

variable {E : Type} [Zero E] [Add E] [Mul E] {f g f' g' : Nat → E}

theorem dot_succ (n : Nat) (f g : Nat → E) : dot (n + 1) f g = dot n f g + f n * g n := by
  simp only [dot, Arith.sumOver, List.range_succ, List.foldl_concat]

/-- What relates two sums at the start, and is kept with each term, relates the
finished sums. -/
theorem dot_rel {E' : Type} [Zero E'] [Add E'] [Mul E'] {r : E → E' → Prop} {n : Nat}
    {f g : Nat → E} {f' g' : Nat → E'} (zero : r 0 0)
    (step : ∀ p < n, ∀ s s', r s s' → r (s + f p * g p) (s' + f' p * g' p)) :
    r (dot n f g) (dot n f' g') :=
  List.foldl_rel zero fun p hp => step p (List.mem_range.1 hp)

/-- A sum depends on its terms only. -/
theorem dot_congr {n : Nat} (h : ∀ p < n, f p * g p = f' p * g' p) :
    dot n f g = dot n f' g' :=
  dot_rel rfl fun p hp _ _ hs => congrArg₂ (· + ·) hs (h p hp)

end Sums

namespace NumArray

variable {a b : NumArray} {i j : Nat}

/-! ## Single elements -/

/-- A valid array is determined by its type, its shape and what is at its places. -/
theorem ext_of_loadComplex (ha : a.IsValid) (hb : b.IsValid) (hdtype : a.dtype = b.dtype)
    (hshape : a.shape = b.shape)
    (h : ∀ k < a.shape.numel, a.storage.loadComplex k = b.storage.loadComplex k) : a = b := by
  obtain ⟨s, x⟩ := a
  obtain ⟨t, y⟩ := b
  obtain rfl : s = t := hshape
  refine congrArg (NumArray.mk s) (Storage.ext_of_loadComplex ha.storage hb.storage hdtype
    (ha.size.trans hb.size.symm) fun k hk => h k ?_)
  rwa [ha.size] at hk

/-- A valid array is determined by its type, its shape and its elements. -/
theorem ext_of_entry (ha : a.IsValid) (hb : b.IsValid) (hdtype : a.dtype = b.dtype)
    (hshape : a.shape = b.shape)
    (h : ∀ i < a.nrows, ∀ j < a.ncols, a.entry i j = b.entry i j) : a = b := by
  refine ext_of_loadComplex ha hb hdtype hshape fun p hp => ?_
  -- every place is the place of an element
  have hrow : p / a.shape.cols < a.shape.rows := Nat.div_lt_of_lt_mul (Nat.mul_comm _ _ ▸ hp)
  have hentry := h (p / a.shape.cols) hrow (p % a.shape.cols) (Nat.mod_lt _ ha.shape.2)
  have hplace : a.shape.offset (p / a.shape.cols) (p % a.shape.cols) = p :=
    Nat.div_add_mod' p a.shape.cols
  rwa [entry, entry, ← hshape, hplace] at hentry

theorem entry_rearrange (a : NumArray) {s : Shape} (place : Nat → Nat → Nat) (hi : i < s.rows)
    (hj : j < s.cols) : (a.rearrange s place).entry i j = a.storage.loadComplex (place i j) := by
  have hk := Shape.offset_lt_size_tabulate hi hj place
  exact (Storage.loadComplex_pick _ hk).trans
    (congrArg a.storage.loadComplex (Shape.getElem_tabulate hi hj place hk))

/-! ## Elementwise operations -/

theorem offset_lt_size_of_isValid (ha : a.IsValid) (hi : i < a.nrows) (hj : j < a.ncols) :
    a.shape.offset i j < a.storage.size := by
  rw [ha.size]
  exact Shape.offset_lt_numel hi hj

theorem getElem_toComplexArray {k : Nat} (hk : k < a.toComplexArray.size) :
    a.toComplexArray[k] = a.storage.loadComplex k := by
  simp [toComplexArray, Storage.toComplexArray]

/-- An element is made from the one at the same place, and rounded once. -/
theorem loadComplex_mapElements (f : Complex Float → Complex Float) {k : Nat}
    (hk : k < a.storage.size) :
    (a.mapElements f).storage.loadComplex k = a.dtype.element (f (a.storage.loadComplex k)) := by
  refine (Storage.loadComplex_ofComplex (by rwa [Array.size_map, size_toComplexArray])).trans ?_
  rw [Array.getElem_map, getElem_toComplexArray]

theorem entry_mapElements (ha : a.IsValid) (f : Complex Float → Complex Float)
    (hi : i < a.nrows) (hj : j < a.ncols) :
    (a.mapElements f).entry i j = a.dtype.element (f (a.entry i j)) :=
  loadComplex_mapElements f (offset_lt_size_of_isValid ha hi hj)

theorem entry_combineScalar (ha : a.IsValid) (op : BinaryOp) (x : Scalar)
    (hi : i < a.nrows) (hj : j < a.ncols) :
    (combineScalar op a x).entry i j = a.dtype.element
      (op.onElements (a.isComplex || x.isComplex) (a.entry i j) x.toComplex) :=
  entry_mapElements ha _ hi hj

theorem loadComplex_combine {op : BinaryOp} {c : NumArray} (h : combine op a b = .ok c) {k : Nat}
    (hk : k < a.storage.size) (hk' : k < b.storage.size) :
    c.storage.loadComplex k = a.dtype.element (op.onElements (a.isComplex || b.isComplex)
      (a.storage.loadComplex k) (b.storage.loadComplex k)) := by
  unfold combine at h
  split at h
  · cases h
  · cases h
    refine (Storage.loadComplex_ofComplex ?_).trans ?_
    · rw [Array.size_zipWith, size_toComplexArray, size_toComplexArray]
      omega
    · rw [Array.getElem_zipWith, getElem_toComplexArray, getElem_toComplexArray]

/-- Arrays of one shape can be combined. -/
theorem exists_combine (ha : a.IsValid) (hb : b.IsValid) (hab : a.shape = b.shape)
    (op : BinaryOp) : ∃ c, combine op a b = .ok c ∧ c.shape = a.shape ∧ c.dtype = a.dtype ∧
      ∀ i < a.nrows, ∀ j < a.ncols, c.entry i j = a.dtype.element
        (op.onElements (a.isComplex || b.isComplex) (a.entry i j) (b.entry i j)) := by
  obtain ⟨c, hc, hshape, hdtype⟩ :
      ∃ c, combine op a b = .ok c ∧ c.shape = a.shape ∧ c.dtype = a.dtype :=
    ⟨_, if_neg (not_not.2 hab), rfl, rfl⟩
  refine ⟨c, hc, hshape, hdtype, fun i hi j hj => ?_⟩
  have hk := offset_lt_size_of_isValid ha hi hj
  have hk' : a.shape.offset i j < b.storage.size := by
    rwa [hb.size, ← hab, ← ha.size]
  rw [entry, entry, entry, hshape, ← hab]
  exact loadComplex_combine hc hk hk'

/-! ## Products -/

/-- The sum that an element of a product is made of, along an inner extent of `k`. -/
def productEntry (a b : NumArray) (k i j : Nat) : Complex Float :=
  if a.isComplex || b.isComplex then dot k (a.entry i) (b.entry · j)
  else .ofReal (dot k (a.entry i · |>.re) (b.entry · j |>.re))

theorem entry_mk_tabulate {s : Shape} (f : Nat → Nat → Complex Float) (dtype : DType)
    (hi : i < s.rows) (hj : j < s.cols) :
    entry ⟨s, .ofComplex (s.tabulate f) dtype⟩ i j = dtype.element (f i j) := by
  have hk := Shape.offset_lt_size_tabulate hi hj f
  exact (Storage.loadComplex_ofComplex hk).trans
    (congrArg dtype.element (Shape.getElem_tabulate hi hj f hk))

variable {m k n : Nat}

theorem matmul_eq_ok (ha : a.shape = .matrix m k) (hb : b.shape = .matrix k n) :
    a.matmul b = .ok ⟨.matrix m n, .ofComplex ((Shape.matrix m n).tabulate (a.productEntry b k))
      (a.dtype.promote b.dtype)⟩ := by
  have hdims : ProductDims.ofDims a.dims b.dims = .ok ⟨m, k, n⟩ := by
    rw [dims, dims, ha, hb]
    exact if_pos rfl
  rw [matmul, hdims]
  refine congrArg (fun values => Except.ok (NumArray.mk _ (.ofComplex values _))) ?_
  unfold productEntry
  split <;> rfl

/-- Matrices that agree on the inner extent can be multiplied. -/
theorem exists_matmul (ha : a.shape = .matrix m k) (hb : b.shape = .matrix k n) :
    ∃ c, a.matmul b = .ok c ∧ c.shape = .matrix m n ∧ c.dtype = a.dtype.promote b.dtype ∧
      ∀ i < m, ∀ j < n, c.entry i j = c.dtype.element (a.productEntry b k i j) :=
  ⟨_, matmul_eq_ok ha hb, rfl, rfl, fun _ hi _ hj => entry_mk_tabulate (s := .matrix m n) _ _ hi hj⟩

/-! ## Transposes -/

theorem transpose_eq_rearrange (ha : a.shape = .matrix m n) :
    a.transpose = a.rearrange (.matrix n m) fun i j => a.shape.offset j i := by
  rw [transpose]
  split
  · next h =>
      rw [ha] at h
      cases h
  · next h =>
      rw [ha] at h
      cases h
      rfl

theorem shape_transpose (ha : a.shape = .matrix m n) : a.transpose.shape = .matrix n m := by
  rw [transpose_eq_rearrange ha]
  rfl

@[simp] theorem dtype_transpose (a : NumArray) : a.transpose.dtype = a.dtype := by
  unfold transpose
  split <;> rfl

/-- What a matrix has in a row and a column, its transpose has there with the
two exchanged. -/
theorem entry_transpose (ha : a.shape = .matrix m n) (hi : i < n) (hj : j < m) :
    a.transpose.entry i j = a.entry j i := by
  rw [transpose_eq_rearrange ha]
  exact entry_rearrange a (s := .matrix n m) _ hi hj

theorem transpose_mk_tabulate (f : Nat → Nat → Complex Float) (dtype : DType) :
    transpose ⟨.matrix m n, .ofComplex ((Shape.matrix m n).tabulate f) dtype⟩
      = ⟨.matrix n m, .ofComplex ((Shape.matrix n m).tabulate fun i j => f j i) dtype⟩ := by
  have hplaces : ∀ k ∈ (Shape.matrix n m).tabulate (fun i j => (Shape.matrix m n).offset j i),
      k < ((Shape.matrix m n).tabulate f).size := by
    intro k hk
    obtain ⟨i, hi, j, hj, rfl⟩ := Shape.mem_tabulate_iff.1 hk
    exact Shape.offset_lt_size_tabulate hj hi f
  refine congrArg (NumArray.mk _) ((Storage.pick_ofComplex hplaces dtype).trans ?_)
  rw [Shape.map_tabulate]
  exact congrArg (Storage.ofComplex · dtype)
    (Shape.tabulate_congr fun i hi j hj => Shape.getD_tabulate hj hi f default)

end NumArray

end DenseNumeric
