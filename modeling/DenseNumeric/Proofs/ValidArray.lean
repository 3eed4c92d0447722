import DenseNumeric.NumArray.Decomposition
import DenseNumeric.NumArray.Elementwise
import DenseNumeric.NumArray.Product
import DenseNumeric.NumArray.Stack
import DenseNumeric.Proofs.Layout
import DenseNumeric.Proofs.ValidStorage

/-!
# Valid arrays

An array is valid if its extents are positive and its elements are a valid run
that fills the shape. Constructors check the shape they are given; all other
operations make shapes of their own, and rely on their operands being valid.

There is one lemma for each operation: valid operands have valid results.
-/

namespace DenseNumeric

/-! ## Eigenvalues -/

theorem DenseMatrix.length_values_of_eigensystem {n : Nat} {R : Type} [Arith R]
    {m : DenseMatrix n n (Complex R)} {options : EigenOptions} {s : Eigensystem n R}
    (h : (m.eigensystem options).value = .ok s) : s.values.length = n := by
  unfold eigensystem at h
  split at h
  · cases h
    exact length_diagonal m
  · simp only [Logged.andThen] at h
    split at h
    · cases h
    · cases h
      exact length_diagonal _

/-! ## Validity -/

namespace NumArray

/-- Positive extents, and a valid run of elements that fills the shape. -/
structure IsValid (a : NumArray) : Prop where
  shape : a.shape.IsPositive
  size : a.storage.size = a.shape.numel
  storage : a.storage.IsValid

theorem isValid_mk_ofComplex {s : Shape} {values : Array (Complex Float)} (hs : s.IsPositive)
    (hsize : values.size = s.numel) (dtype : DType) : IsValid ⟨s, .ofComplex values dtype⟩ :=
  ⟨hs, (Storage.size_ofComplex values dtype).trans hsize, Storage.ofComplex_isValid values dtype⟩

theorem isValid_mk_ofElements {α : Type} [Element α] {s : Shape} {data : Array α}
    (hs : s.IsPositive) (hsize : data.size = s.numel) : IsValid ⟨s, .ofElements data⟩ :=
  isValid_mk_ofComplex hs (Array.size_map.trans hsize) _

/-! ## Constructors -/

variable {a b : NumArray} {dims : List Nat} {dtype : DType}

theorem zeros_isValid (h : zeros dims dtype = .ok a) : a.IsValid := by
  obtain ⟨s, hs, h⟩ := bind_eq_ok.1 h
  obtain rfl := pure_eq_ok.1 h
  exact ⟨(Shape.ofDims_eq_ok hs).1, Storage.size_zeros _ _, Storage.zeros_isValid _ _⟩

theorem full_isValid {value : Scalar} (h : full dims dtype value = .ok a) : a.IsValid := by
  obtain ⟨s, hs, h⟩ := bind_eq_ok.1 h
  obtain rfl := pure_eq_ok.1 h
  exact ⟨(Shape.ofDims_eq_ok hs).1, Storage.size_filled _ _ _, Storage.filled_isValid _ _ _⟩

theorem ofPlanes_isValid {re : Array Float} {im : Option (Array Float)}
    (h : ofPlanes dims dtype re im = .ok a) : a.IsValid := by
  obtain ⟨s, hs, h⟩ := bind_eq_ok.1 h
  obtain ⟨hsize, h⟩ := check_eq_ok.1 h
  obtain ⟨storage, hstorage, h⟩ := bind_eq_ok.1 h
  obtain rfl := pure_eq_ok.1 h
  obtain ⟨hvalid, hre⟩ := Storage.ofPlanes_isValid hstorage
  exact ⟨(Shape.ofDims_eq_ok hs).1, hre.trans (Classical.not_not.1 hsize), hvalid⟩

/-! ## Conversion and arithmetic -/

theorem astype_isValid (ha : a.IsValid) (dtype : DType) : (a.astype dtype).IsValid :=
  ⟨ha.shape, (Storage.size_cast _ _).trans ha.size, Storage.cast_isValid ha.storage dtype⟩

theorem rearrange_isValid (ha : a.IsValid) {s : Shape} (hs : s.IsPositive)
    (place : Nat → Nat → Nat) : (a.rearrange s place).IsValid :=
  ⟨hs, (Storage.size_pick _ _).trans (Shape.size_tabulate _ _), Storage.pick_isValid ha.storage _⟩

theorem transpose_isValid (ha : a.IsValid) : a.transpose.IsValid := by
  unfold transpose
  split
  · exact ha
  · next m n hs =>
      have hpos : (Shape.matrix m n).IsPositive := hs ▸ ha.shape
      exact rearrange_isValid ha (s := .matrix n m) ⟨hpos.2, hpos.1⟩ _

@[simp] theorem size_toComplexArray (a : NumArray) : a.toComplexArray.size = a.storage.size :=
  Array.size_ofFn

theorem mapElements_isValid (ha : a.IsValid) (f : Complex Float → Complex Float) :
    (a.mapElements f).IsValid := by
  refine isValid_mk_ofComplex ha.shape ?_ _
  rw [Array.size_map, size_toComplexArray, ha.size]

theorem combine_isValid (ha : a.IsValid) (hb : b.IsValid) {op : BinaryOp} {c : NumArray}
    (h : combine op a b = .ok c) : c.IsValid := by
  unfold combine at h
  split at h
  · cases h
  · next hshape =>
      obtain rfl := Except.ok.inj h
      refine isValid_mk_ofComplex ha.shape ?_ _
      rw [Array.size_zipWith, size_toComplexArray, size_toComplexArray, ha.size, hb.size,
        Classical.not_not.1 hshape, Nat.min_self]

/-- The factors of a product are matrices that share the inner extent. -/
theorem productDims_eq_ok {x y : List Nat} {d : ProductDims} (h : ProductDims.ofDims x y = .ok d) :
    x = [d.rows, d.inner] ∧ y = [d.inner, d.cols] := by
  unfold ProductDims.ofDims at h
  split at h
  · split at h
    · next hk =>
        cases h
        exact ⟨rfl, by rw [hk]⟩
    · cases h
  · cases h

theorem matmul_isValid (ha : a.IsValid) (hb : b.IsValid) {c : NumArray}
    (h : a.matmul b = .ok c) : c.IsValid := by
  obtain ⟨⟨m, k, n⟩, hdims, h⟩ := bind_eq_ok.1 h
  obtain rfl := pure_eq_ok.1 h
  obtain ⟨hleft, hright⟩ := productDims_eq_ok hdims
  have hrows : 0 < m := by
    have := ha.shape.1
    rwa [Shape.eq_matrix_of_dims hleft] at this
  have hcols : 0 < n := by
    have := hb.shape.2
    rwa [Shape.eq_matrix_of_dims hright] at this
  refine isValid_mk_ofComplex (s := .matrix m n) ⟨hrows, hcols⟩ ?_ _
  split <;> exact Shape.size_tabulate _ _

/-! ## Selecting -/

theorem select_isValid (ha : a.IsValid) {key : List AxisKey} (h : a.get key = .ok (.array b)) :
    b.IsValid := by
  obtain ⟨r, hr, h⟩ := bind_eq_ok.1 h
  replace h := pure_eq_ok.1 h
  unfold select at h
  split at h
  · cases h
  · next s hs =>
      cases h
      obtain ⟨hpos, hnumel⟩ := Region.shape?_eq_some (isIn_of_resolve hr) hs
      refine ⟨hpos, ?_, Storage.pick_isValid ha.storage _⟩
      rw [Storage.size_pick, Region.size_places, hnumel]

theorem assign_isValid (ha : a.IsValid) (places : Array Nat) (value : Nat → Scalar) :
    IsValid { a with storage := a.storage.assign places value } :=
  ⟨ha.shape, (Storage.size_assign _ _ _).trans ha.size, Storage.assign_isValid ha.storage _ _⟩

theorem setScalar_isValid (ha : a.IsValid) {key : List AxisKey} {value : Scalar}
    (h : a.setScalar key value = .ok b) : b.IsValid := by
  obtain ⟨r, -, h⟩ := bind_eq_ok.1 h
  obtain rfl := pure_eq_ok.1 h
  exact assign_isValid ha _ _

/-- A row or a column is never a single element. -/
theorem exists_shape?_of_resolve_line {axis : Axis} {index : Int} {r : Region}
    (h : (a.resolve <| match axis with
      | .rows => [.position index, .all]
      | .cols => [.all, .position index]) = .ok r) : ∃ t, r.shape? = some t := by
  refine Option.ne_none_iff_exists'.1 fun hnone => ?_
  have hall := (shape?_eq_none_iff h).1 hnone .all (by cases axis <;> simp)
  cases hall

theorem commonDType_eq_ok {parts : List NumArray} {d : DType} (h : commonDType a parts = .ok d) :
    ∀ part ∈ parts, part.dtype = d := by
  unfold commonDType at h
  split at h
  · cases h
  · next hfind =>
      cases h
      simpa using hfind

theorem foldl_add_eq_sum_map {α : Type} (xs : List α) (f : α → Nat) :
    xs.foldl (fun n x => n + f x) 0 = (xs.map f).sum := by
  rw [List.sum_eq_foldl, List.foldl_map]

theorem vstack_isValid {parts : List NumArray} (hparts : ∀ part ∈ parts, part.IsValid)
    (h : vstack parts = .ok a) : a.IsValid := by
  cases parts with
  | nil => cases h
  | cons first rest =>
      obtain ⟨dtype, hdtype, h⟩ := bind_eq_ok.1 h
      dsimp only at h
      split at h
      · cases h
      next hcols =>
        obtain rfl := pure_eq_ok.1 h
        have hfirst := hparts first List.mem_cons_self
        generalize hall : first :: rest = parts at *
        have hmem : first ∈ parts := hall ▸ List.mem_cons_self
        have hruns : ∀ s ∈ parts.map storage, s.IsValid ∧ s.dtype = dtype := by
          intro s hs
          obtain ⟨part, hpart, rfl⟩ := List.mem_map.1 hs
          exact ⟨(hparts part hpart).storage, commonDType_eq_ok hdtype part hpart⟩
        have hsize : ∀ part ∈ parts, part.storage.size = part.nrows * first.ncols := by
          intro part hpart
          have hpartcols : part.ncols = first.ncols := by
            simpa using List.find?_eq_none.1 hcols part hpart
          rw [(hparts part hpart).size, ← hpartcols]
          rfl
        refine ⟨⟨?_, hfirst.shape.2⟩, ?_, Storage.concat_isValid hruns⟩
        · rw [Shape.rows, foldl_add_eq_sum_map]
          exact Nat.lt_of_lt_of_le hfirst.shape.1 (List.le_sum_of_mem (List.mem_map_of_mem hmem))
        · rw [Storage.size_concat, List.map_map, Shape.numel, Shape.rows, Shape.cols,
            foldl_add_eq_sum_map, ← List.sum_map_mul_right]
          exact congrArg List.sum (List.map_congr_left hsize)

theorem size_rowElements (a : NumArray) (i : Nat) : (a.rowElements i).size = a.ncols := by
  rw [rowElements, Storage.size_pick, Shape.size_tabulate, Shape.numel, Shape.rows, Nat.one_mul]
  rfl

theorem hstack_isValid {parts : List NumArray} (hparts : ∀ part ∈ parts, part.IsValid)
    (h : hstack parts = .ok a) : a.IsValid := by
  cases parts with
  | nil => cases h
  | cons first rest =>
      obtain ⟨dtype, hdtype, h⟩ := bind_eq_ok.1 h
      dsimp only at h
      split at h
      · cases h
      next hrows =>
        obtain rfl := pure_eq_ok.1 h
        have hfirst := hparts first List.mem_cons_self
        generalize hall : first :: rest = parts at *
        have hmem : first ∈ parts := hall ▸ List.mem_cons_self
        have hruns : ∀ s ∈ (List.range first.nrows).flatMap fun i => parts.map (·.rowElements i),
            s.IsValid ∧ s.dtype = dtype := by
          intro s hs
          obtain ⟨i, -, hs⟩ := List.mem_flatMap.1 hs
          obtain ⟨part, hpart, rfl⟩ := List.mem_map.1 hs
          exact ⟨Storage.pick_isValid (hparts part hpart).storage _,
            commonDType_eq_ok hdtype part hpart⟩
        have hcols : 0 < (parts.map ncols).sum :=
          Nat.lt_of_lt_of_le hfirst.shape.2 (List.le_sum_of_mem (List.mem_map_of_mem hmem))
        have hsize : (((List.range first.nrows).flatMap fun i => parts.map (·.rowElements i)).map
            Storage.size).sum = first.nrows * (parts.map ncols).sum := by
          have hrow (i : Nat) : ((parts.map (·.rowElements i)).map Storage.size).sum
              = (parts.map ncols).sum := by
            rw [List.map_map]
            exact congrArg List.sum (List.map_congr_left fun part _ => size_rowElements part i)
          rw [List.flatMap_def, List.map_flatten, List.sum_flatten, List.map_map, List.map_map]
          refine (congrArg List.sum (List.map_congr_left fun i _ => hrow i)).trans ?_
          rw [List.map_const', List.sum_replicate, List.length_range, smul_eq_mul]
        have hshape {s : Shape} (hs : s.rows = first.nrows ∧ s.cols = (parts.map ncols).sum) :
            IsValid ⟨s, .concat dtype ((List.range first.nrows).flatMap fun i =>
              parts.map (·.rowElements i))⟩ := by
          refine ⟨⟨Nat.lt_of_lt_of_eq hfirst.shape.1 hs.1.symm, Nat.lt_of_lt_of_eq hcols hs.2.symm⟩,
            ?_, Storage.concat_isValid hruns⟩
          rw [Storage.size_concat, hsize, Shape.numel, hs.1, hs.2]
        apply hshape
        rw [foldl_add_eq_sum_map, nrows]
        cases first.shape with
        | vector n => exact ⟨rfl, rfl⟩
        | matrix m n => exact ⟨rfl, rfl⟩

theorem cut_isValid (ha : a.IsValid) {axis : Axis} {width : Nat} (hwidth : 0 < width) (k : Nat) :
    (a.cut axis width k).IsValid := by
  unfold cut
  split
  · exact rearrange_isValid ha (s := .matrix width a.ncols) ⟨hwidth, ha.shape.2⟩ _
  · exact rearrange_isValid ha (s := .vector width) ⟨Nat.one_pos, hwidth⟩ _
  · next m n hs =>
      have hpos : (Shape.matrix m n).IsPositive := hs ▸ ha.shape
      exact rearrange_isValid ha (s := .matrix m width) ⟨hpos.1, hwidth⟩ _

/-- The parts of an evenly split axis are not empty. -/
theorem split_isValid (ha : a.IsValid) {axis : Axis} {sections : Nat} {parts : List NumArray}
    (h : a.split axis sections = .ok parts) : ∀ part ∈ parts, part.IsValid := by
  obtain ⟨hsections, h⟩ := check_eq_ok.1 h
  obtain ⟨-, h⟩ := check_eq_ok.1 h
  dsimp only at h
  obtain ⟨heven, h⟩ := check_eq_ok.1 h
  obtain rfl := pure_eq_ok.1 h
  intro part hpart
  obtain ⟨k, -, rfl⟩ := List.mem_map.1 hpart
  refine cut_isValid ha ?_ k
  have hextent : 0 < (match axis with
      | .rows => a.nrows
      | .cols => a.ncols) := by
    cases axis with
    | rows => exact ha.shape.1
    | cols => exact ha.shape.2
  exact Nat.div_pos (Nat.le_of_dvd hextent (Nat.dvd_of_mod_eq_zero (Classical.not_not.1 heven)))
    (Nat.pos_of_ne_zero hsections)

/-! ## Decompositions -/

theorem toNumArray_isValid {n : Nat} (hn : 0 < n) (m : DenseMatrix n n (Complex Float))
    (dtype : DType) : (m.toNumArray dtype).IsValid :=
  isValid_mk_ofComplex (s := .matrix n n) ⟨hn, hn⟩ (Shape.size_tabulate _ _) _

theorem squareOrder_eq_ok {n : Nat} (h : squareOrder dims = .ok n) : dims = [n, n] := by
  obtain ⟨⟨m, n'⟩, hdims, h⟩ := bind_eq_ok.1 h
  obtain ⟨hsquare, h⟩ := check_eq_ok.1 h
  obtain rfl := pure_eq_ok.1 h
  unfold matrixDims at hdims
  split at hdims
  · cases hdims
    rw [Classical.not_not.1 hsquare]
  · cases hdims

theorem squareOrder_eq_ok_iff {n : Nat} : squareOrder a.dims = .ok n ↔ a.shape = .matrix n n := by
  refine ⟨fun h => Shape.eq_matrix_of_dims (squareOrder_eq_ok h), fun h => ?_⟩
  rw [dims, h]
  exact if_neg (fun h => h rfl)

/-- A square array is not empty. -/
theorem pos_of_squareOrder (ha : a.IsValid) {n : Nat} (h : squareOrder a.dims = .ok n) : 0 < n := by
  have := ha.shape.1
  rwa [Shape.eq_matrix_of_dims (squareOrder_eq_ok h)] at this

namespace Factors

/-- Both arrays of a decomposition are valid. -/
def IsValid (f : Factors) : Prop := f.basis.IsValid ∧ f.form.IsValid

end Factors

/-- The values and the vectors that were asked for are valid. -/
structure EigenArrays.IsValid (e : EigenArrays) : Prop where
  values : e.values.IsValid
  left : ∀ v ∈ e.left, v.IsValid
  right : ∀ v ∈ e.right, v.IsValid

end NumArray

end DenseNumeric
