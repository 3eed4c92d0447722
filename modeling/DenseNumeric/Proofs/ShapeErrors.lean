import DenseNumeric.Proofs.Workspace

/-!
# Shape errors

An operation that fails for a shape names the shape that it expected and the
one that it got, and a caller can only learn from them if they differ. An
operation is taken apart in the order in which it is written: an error comes
from the first step that gives one, and the check in front of it is what tells
the two shapes apart.

One check does not. Beside others, a part that does not fit is told its own
shape with the right number of rows, cut to the rank of the first part. So a
matrix beside vectors is told a vector. But nothing is added to a vector beside
matrices: it is told the number of rows alone, which may be its own length.
-/

namespace DenseNumeric

/-! ## Failures, step by step -/

/-- A failure that comes from either step. -/
theorem bind_eq_error {ε α β : Type} {x : Except ε α} {f : α → Except ε β} {e : ε} :
    x >>= f = .error e ↔ x = .error e ∨ ∃ a, x = .ok a ∧ f a = .error e := by
  cases x with
  | error e' => simp [bind, Except.bind]
  | ok a => simp [bind, Except.bind]

/-- If the operation fails for a shape, then it names two different shapes. -/
def TellsShapesApart {α : Type} (x : Except Error α) : Prop :=
  ∀ expected got, x = .error (.shapeMismatch expected got) → expected ≠ got

namespace TellsShapesApart

variable {α β : Type} {x : Except Error α} {e : Error}

theorem ok (a : α) : TellsShapesApart (.ok a : Except Error α) := nofun

theorem error (h : ∀ expected got, e = .shapeMismatch expected got → expected ≠ got) :
    TellsShapesApart (.error e : Except Error α) :=
  fun expected got he => h expected got (Except.error.inj he)

theorem mismatch {expected got : List Nat} (h : expected ≠ got) :
    TellsShapesApart (.error (.shapeMismatch expected got) : Except Error α) :=
  error fun _ _ he => by
    cases he
    exact h

theorem bind {f : α → Except Error β} (hx : TellsShapesApart x)
    (hf : ∀ a, x = .ok a → TellsShapesApart (f a)) : TellsShapesApart (x >>= f) := by
  cases x with
  | error e => exact fun expected got h => hx expected got (congrArg _ (Except.error.inj h))
  | ok a => exact hf a rfl

theorem check {c : Prop} [Decidable c] (he : c → TellsShapesApart (.error e : Except Error α))
    (hx : ¬c → TellsShapesApart x) :
    TellsShapesApart (do if c then throw e
                         x) := by
  by_cases h : c
  · rw [if_pos h]
    exact he h
  · rw [if_neg h]
    exact hx h

theorem map (hx : TellsShapesApart x) (f : α → β) : TellsShapesApart (x.map f) :=
  fun expected got h => hx expected got (map_eq_error.1 h)

end TellsShapesApart

open TellsShapesApart

/-! ## Shapes and factors -/

theorem Shape.dims_injective {s t : Shape} (h : s.dims = t.dims) : s = t := by
  cases s <;> cases t <;> simp_all [dims]

/-- Beside an array of shape `s`, one of shape `t` that does not fit is told its
own shape exactly if it is a vector, as long as the matrix is high. -/
theorem Shape.told_eq_dims_iff {s t : Shape} (h : t.ndim ≠ s.ndim ∨ t.rows ≠ s.rows) :
    (s.rows :: t.dims.tail).take s.ndim = t.dims ↔ s.isMatrix = true ∧ t = .vector s.rows := by
  cases s with
  | vector n =>
      cases t with
      | vector k => exact absurd h (not_or.2 ⟨fun h => h rfl, fun h => h rfl⟩)
      | matrix m k => exact iff_of_false nofun nofun
  | matrix m n =>
      cases t with
      | vector k => simp [dims, rows, ndim, isMatrix, eq_comm]
      | matrix m' k =>
          have hrows : m' ≠ m := h.resolve_left fun h => h rfl
          simp [dims, rows, ndim, hrows.symm]

theorem Shape.ofDims_tellsShapesApart (dims : List Nat) : TellsShapesApart (ofDims dims) := by
  unfold ofDims
  split
  · split
    · exact error nofun
    · exact .ok _
  · split
    · exact error nofun
    · exact .ok _
  · exact error nofun

/-- The number of elements is that of a vector with the shape of all elements,
so no other number makes up the same shape. -/
theorem Shape.dims_ne_of_numel_ne {s : Shape} {n : Nat} (h : n ≠ s.numel) : s.dims ≠ [n] := by
  cases s with
  | vector m =>
      rw [numel, rows, cols, Nat.one_mul] at h
      exact fun hdims => h (List.singleton_inj.1 hdims).symm
  | matrix m k => simp [dims]

theorem ProductDims.ofDims_tellsShapesApart (a b : List Nat) : TellsShapesApart (ofDims a b) := by
  unfold ofDims
  split
  · split
    · exact .ok _
    · next hk => exact mismatch fun h => hk (List.cons.inj h).1
  · next hfactors =>
      -- the shape at fault is not that of a matrix, and the expected one is
      refine mismatch fun h => ?_
      have hlength := congrArg List.length h
      split at hlength
      · next ha => exact ha hlength.symm
      · next ha =>
          obtain ⟨m, k, rfl⟩ := List.length_eq_two.1 (Classical.not_not.1 ha)
          obtain ⟨k', n, rfl⟩ := List.length_eq_two.1 hlength.symm
          exact hfactors _ _ _ _ rfl rfl

theorem squareOrder_tellsShapesApart (dims : List Nat) : TellsShapesApart (squareOrder dims) := by
  have hmatrix : TellsShapesApart (matrixDims dims) := by
    unfold matrixDims
    split
    · exact .ok _
    · exact error nofun
  refine hmatrix.bind fun ⟨m, n⟩ _ => check (fun hsquare => ?_) fun _ => .ok n
  exact mismatch fun h => hsquare (List.cons.inj (List.cons.inj h).2).1

/-! ## Elimination and sweeps -/

section

variable {n : Nat} {E R : Type} [Arith R]

/-- Columns are cleared until one has no pivot, which is no matter of shape. -/
theorem DenseMatrix.inverse_tellsShapesApart [Entry E R] (a : DenseMatrix n n E)
    (pivoting : Pivoting) : TellsShapesApart (a.inverse pivoting).value := by
  have hcolumns (scale tiny : R) (is : List Nat) (b : DenseMatrix n (2 * n) E) :
      TellsShapesApart (clearColumns pivoting scale tiny is b).value := by
    induction is generalizing b with
    | nil => exact .ok b
    | cons i is ih =>
        rw [clearColumns]
        split
        · exact error nofun
        · exact ih _
  exact (hcolumns _ _ _ _).map rightHalf

theorem Similar.triangularize_tellsShapesApart (p : Similar n R) (limit : Nat) :
    TellsShapesApart (p.triangularize limit).value := by
  have houtcome (s : QrState n R) : TellsShapesApart s.outcome.value := by
    unfold QrState.outcome
    split
    · exact .ok _
    · exact error nofun
  unfold triangularize
  dsimp only
  split
  · exact .ok p
  · exact houtcome _

theorem DenseMatrix.eigensystem_tellsShapesApart (a : DenseMatrix n n (Complex R))
    (options : EigenOptions) : TellsShapesApart (a.eigensystem options).value := by
  unfold eigensystem
  split
  · exact .ok _
  · have hform := (a.hessenberg (options.left || options.right)).triangularize_tellsShapesApart
      options.maxIterations
    dsimp only [Logged.andThen]
    split
    · next e he => exact error fun _ _ h => hform _ _ (he.trans (congrArg _ h))
    · exact .ok _

end

namespace NumArray

/-! ## Construction and arithmetic -/

theorem zeros_tellsShapesApart (dims : List Nat) (dtype : DType) :
    TellsShapesApart (zeros dims dtype) :=
  (Shape.ofDims_tellsShapesApart dims).bind fun _ _ => .ok _

theorem full_tellsShapesApart (dims : List Nat) (dtype : DType) (value : Scalar) :
    TellsShapesApart (full dims dtype value) :=
  (Shape.ofDims_tellsShapesApart dims).bind fun _ _ => .ok _

theorem identity_tellsShapesApart (n : Nat) (dtype : DType) :
    TellsShapesApart (identity n dtype) :=
  (Shape.ofDims_tellsShapesApart [n, n]).bind fun _ _ => .ok _

theorem ofElements_tellsShapesApart {α : Type} [Element α] (data : Array α) (dims : List Nat) :
    TellsShapesApart (ofElements data dims) :=
  (Shape.ofDims_tellsShapesApart dims).bind fun _ _ =>
    check (fun hsize => mismatch (Shape.dims_ne_of_numel_ne hsize)) fun _ => .ok _

theorem ofRows_tellsShapesApart {α : Type} [Element α] (rows : List (List α)) (dtype : DType) :
    TellsShapesApart (ofRows rows dtype) := by
  refine (Shape.ofDims_tellsShapesApart _).bind fun _ _ => ?_
  split
  · next row hrow =>
      have hlength := List.find?_some hrow
      exact mismatch fun h => of_decide_eq_true hlength (List.singleton_inj.1 h).symm
  · exact .ok _

theorem ofPlanes_tellsShapesApart (dims : List Nat) (dtype : DType) (re : Array Float)
    (im : Option (Array Float)) : TellsShapesApart (ofPlanes dims dtype re im) := by
  have hstorage : TellsShapesApart (Storage.ofPlanes dtype re im) := by
    unfold Storage.ofPlanes
    dsimp only
    split
    · next hplane => exact mismatch fun h => hplane (List.singleton_inj.1 h).symm
    · exact .ok _
  exact (Shape.ofDims_tellsShapesApart dims).bind fun _ _ =>
    check (fun hsize => mismatch (Shape.dims_ne_of_numel_ne hsize)) fun _ =>
      hstorage.bind fun _ _ => .ok _

theorem combine_tellsShapesApart (op : BinaryOp) (a b : NumArray) :
    TellsShapesApart (combine op a b) := by
  unfold combine
  split
  · next hshape => exact mismatch fun h => hshape (Shape.dims_injective h)
  · exact .ok _

theorem matmul_tellsShapesApart (a b : NumArray) : TellsShapesApart (a.matmul b) :=
  (ProductDims.ofDims_tellsShapesApart a.dims b.dims).bind fun _ _ => .ok _

/-! ## Selecting -/

theorem resolveIndex_tellsShapesApart (index : Int) (length bound : Nat) :
    TellsShapesApart (resolveIndex index length bound) := by
  unfold resolveIndex
  split
  · exact .ok _
  · exact error nofun

theorem AxisKey.resolve_tellsShapesApart (key : AxisKey) (length : Nat) :
    TellsShapesApart (key.resolve length) := by
  cases key with
  | position index =>
      exact (resolveIndex_tellsShapesApart index length length).bind fun _ _ => .ok _
  | slice s =>
      obtain ⟨start, stop, step⟩ := s
      refine check (fun _ => error nofun) fun _ =>
        (resolveIndex_tellsShapesApart start length (length + 1)).bind fun first _ => ?_
      cases stop with
      | none => exact check (fun _ => error nofun) fun _ => .ok _
      | some stop =>
          exact (resolveIndex_tellsShapesApart stop length (length + 1)).bind fun last _ =>
            check (fun _ => error nofun) fun _ => .ok _

theorem resolve_tellsShapesApart (a : NumArray) (key : List AxisKey) :
    TellsShapesApart (a.resolve key) := by
  unfold resolve
  split
  · exact (AxisKey.resolve_tellsShapesApart _ _).bind fun _ _ => .ok _
  · exact (AxisKey.resolve_tellsShapesApart _ _).bind fun _ _ =>
      (AxisKey.resolve_tellsShapesApart _ _).bind fun _ _ => .ok _
  · exact error nofun

theorem get_tellsShapesApart (a : NumArray) (key : List AxisKey) : TellsShapesApart (a.get key) :=
  (a.resolve_tellsShapesApart key).bind fun _ _ => .ok _

theorem line_tellsShapesApart (a : NumArray) (axis : Axis) (index : Int) :
    TellsShapesApart (a.line axis index) :=
  check (fun _ => error nofun) fun _ => (a.resolve_tellsShapesApart _).bind fun _ _ => .ok _

theorem setScalar_tellsShapesApart (a : NumArray) (key : List AxisKey) (value : Scalar) :
    TellsShapesApart (a.setScalar key value) :=
  (a.resolve_tellsShapesApart key).bind fun _ _ => .ok _

theorem setArray_tellsShapesApart (a : NumArray) (key : List AxisKey) (value : NumArray) :
    TellsShapesApart (a.setArray key value) :=
  (a.resolve_tellsShapesApart key).bind fun _ _ =>
    check (fun hshape => mismatch fun h => hshape h.symm) fun _ => .ok _

/-! ## Splitting and stacking -/

theorem split_tellsShapesApart (a : NumArray) (axis : Axis) (sections : Nat) :
    TellsShapesApart (a.split axis sections) :=
  check (fun _ => error nofun) fun _ => check (fun _ => error nofun) fun _ =>
    check (fun _ => error nofun) fun _ => .ok _

theorem commonDType_ne_shapeMismatch {first : NumArray} {parts : List NumArray}
    {expected got : List Nat} :
    commonDType first parts ≠ .error (.shapeMismatch expected got) := by
  unfold commonDType
  split <;> nofun

/-- One below the other, a part is told what it would be as a matrix. -/
theorem vstack_tellsShapesApart (parts : List NumArray) : TellsShapesApart (vstack parts) := by
  cases parts with
  | nil => exact error nofun
  | cons first rest =>
      refine bind (fun _ _ h => absurd h commonDType_ne_shapeMismatch) fun _ _ => ?_
      dsimp only
      split
      · next part hpart =>
          have hcols := List.find?_some hpart
          rw [decide_eq_true_iff] at hcols
          refine mismatch fun h => hcols ?_
          rw [ncols, Shape.eq_matrix_of_dims h.symm]
          rfl
      · exact .ok _

/-- The first part that does not stand beside `first`, by rank or number of rows. -/
def misfit? (first : NumArray) (parts : List NumArray) : Option NumArray :=
  parts.find? fun part => part.ndim ≠ first.ndim ∨ part.nrows ≠ first.nrows

/-- A matrix comes first, and the first misfit beside it is a vector that is as
long as the matrix is high. -/
def HasVectorMisfit : List NumArray → Prop
  | [] => False
  | first :: rest => first.shape.isMatrix = true ∧
      (misfit? first (first :: rest)).map shape = some (.vector first.nrows)

/-- The one operation that can name a shape twice. -/
theorem hstack_expected_eq_iff {parts : List NumArray} {expected got : List Nat}
    (h : hstack parts = .error (.shapeMismatch expected got)) :
    expected = got ↔ HasVectorMisfit parts := by
  cases parts with
  | nil => cases h
  | cons first rest =>
      obtain ⟨dtype, -, h⟩ := (bind_eq_error.1 h).resolve_left commonDType_ne_shapeMismatch
      dsimp only at h
      split at h
      · next part hpart =>
          obtain ⟨rfl, rfl⟩ := Error.shapeMismatch.inj (Except.error.inj h)
          have hmisfit : misfit? first (first :: rest) = some part := hpart
          have hp := List.find?_some hpart
          rw [decide_eq_true_iff] at hp
          rw [HasVectorMisfit, hmisfit, Option.map_some, Option.some_inj]
          exact Shape.told_eq_dims_iff hp
      · cases h

/-! ## Decompositions -/

theorem inverseWith_tellsShapesApart (a : NumArray) (pivoting : Pivoting) :
    TellsShapesApart (a.inverseWith pivoting).value := by
  have horder := squareOrder_tellsShapesApart a.dims
  unfold inverseWith
  split
  · next e he => exact error fun _ _ h => horder _ _ (he.trans (congrArg _ h))
  · split
    · exact (DenseMatrix.inverse_tellsShapesApart _ pivoting).map _
    · exact (DenseMatrix.inverse_tellsShapesApart _ pivoting).map _

theorem hessenberg_tellsShapesApart (a : NumArray) : TellsShapesApart a.hessenberg :=
  (squareOrder_tellsShapesApart a.dims).bind fun _ _ => .ok _

theorem hessenbergInPlace_tellsShapesApart (a : NumArray) :
    TellsShapesApart a.hessenbergInPlace := by
  unfold hessenbergInPlace
  split
  · exact a.hessenberg_tellsShapesApart
  · exact error nofun

theorem schur_tellsShapesApart (a : NumArray) : TellsShapesApart a.schur.value := by
  have horder := squareOrder_tellsShapesApart a.dims
  unfold schur
  split
  · next e he => exact error fun _ _ h => horder _ _ (he.trans (congrArg _ h))
  · exact (Similar.triangularize_tellsShapesApart _ _).map _

theorem eig_tellsShapesApart (a : NumArray) (options : EigenOptions) :
    TellsShapesApart (a.eig options).value := by
  have horder := squareOrder_tellsShapesApart a.dims
  unfold eig
  split
  · next e he => exact error fun _ _ h => horder _ _ (he.trans (congrArg _ h))
  · exact (DenseMatrix.eigensystem_tellsShapesApart _ options).map _

end NumArray

namespace Workspace

open NumArray

variable {w : Workspace}

/-! ## Every call -/

/-- One kind of call at a time, all but the one that stacks side by side. -/
theorem effect_tellsShapesApart {c : Call} (hc : ∀ places, c ≠ .hstack places)
    {x : Except Error Effect} (h : c.effect w = some x) : TellsShapesApart x := by
  cases c with
  | zeros dims dtype =>
      cases h
      exact (zeros_tellsShapesApart dims dtype).map _
  | ones dims dtype =>
      cases h
      exact (full_tellsShapesApart dims dtype _).map _
  | full dims dtype value =>
      cases h
      exact (full_tellsShapesApart dims dtype value).map _
  | identity n dtype =>
      cases h
      exact (identity_tellsShapesApart n dtype).map _
  | ofElements data dims =>
      cases h
      exact (ofElements_tellsShapesApart data dims).map _
  | ofRows rows dtype =>
      cases h
      exact (ofRows_tellsShapesApart rows dtype).map _
  | ofPlanes dims dtype re im =>
      cases h
      exact (ofPlanes_tellsShapesApart dims dtype re im).map _
  | copy i =>
      obtain ⟨a, -, h⟩ := of_operand h
      cases h
      exact .ok _
  | astype i dtype =>
      obtain ⟨a, -, h⟩ := of_operand h
      cases h
      exact .ok _
  | transpose i =>
      obtain ⟨a, -, h⟩ := of_operand h
      cases h
      exact .ok _
  | neg i =>
      obtain ⟨a, -, h⟩ := of_operand h
      cases h
      exact .ok _
  | conj i =>
      obtain ⟨a, -, h⟩ := of_operand h
      cases h
      exact .ok _
  | combine op i j =>
      obtain ⟨a, -, h⟩ := of_operand h
      obtain ⟨b, -, h⟩ := of_operand h
      cases h
      exact (combine_tellsShapesApart op a b).map _
  | combineScalar op i value =>
      obtain ⟨a, -, h⟩ := of_operand h
      cases h
      exact .ok _
  | matmul i j =>
      obtain ⟨a, -, h⟩ := of_operand h
      obtain ⟨b, -, h⟩ := of_operand h
      cases h
      exact (a.matmul_tellsShapesApart b).map _
  | get i key =>
      obtain ⟨a, -, h⟩ := of_operand h
      cases h
      exact (a.get_tellsShapesApart key).map _
  | row i index =>
      obtain ⟨a, -, h⟩ := of_operand h
      cases h
      exact (a.line_tellsShapesApart .rows index).map _
  | col i index =>
      obtain ⟨a, -, h⟩ := of_operand h
      cases h
      exact (a.line_tellsShapesApart .cols index).map _
  | setScalar i key value =>
      obtain ⟨a, -, h⟩ := of_operand h
      cases h
      exact (a.setScalar_tellsShapesApart key value).map _
  | setArray i key j =>
      obtain ⟨a, -, h⟩ := of_operand h
      obtain ⟨value, -, h⟩ := of_operand h
      cases h
      exact (a.setArray_tellsShapesApart key value).map _
  | setItem i index value =>
      obtain ⟨a, -, h⟩ := of_operand h
      cases h
      exact (a.setScalar_tellsShapesApart _ value).map _
  | hstack places => exact absurd rfl (hc places)
  | vstack places =>
      obtain ⟨parts, -, h⟩ := Option.bind_eq_some_iff.1 h
      cases h
      exact (vstack_tellsShapesApart parts).map _
  | hsplit i sections =>
      obtain ⟨a, -, h⟩ := of_operand h
      cases h
      exact (a.split_tellsShapesApart .cols sections).map _
  | vsplit i sections =>
      obtain ⟨a, -, h⟩ := of_operand h
      cases h
      exact (a.split_tellsShapesApart .rows sections).map _
  | inverse i pivoting =>
      obtain ⟨a, -, h⟩ := of_operand h
      cases h
      exact (a.inverseWith_tellsShapesApart pivoting).map _
  | hessenberg i =>
      obtain ⟨a, -, h⟩ := of_operand h
      cases h
      exact a.hessenberg_tellsShapesApart.map _
  | hessenbergInPlace i =>
      obtain ⟨a, -, h⟩ := of_operand h
      cases h
      exact a.hessenbergInPlace_tellsShapesApart.map _
  | schur i =>
      obtain ⟨a, -, h⟩ := of_operand h
      cases h
      exact a.schur_tellsShapesApart.map _
  | eig i options =>
      obtain ⟨a, -, h⟩ := of_operand h
      cases h
      exact (a.eig_tellsShapesApart options).map _
  | eigvals i =>
      obtain ⟨a, -, h⟩ := of_operand h
      cases h
      exact ((a.eig_tellsShapesApart .valuesOnly).map _).map _

/-- Whatever is called, on whatever arrays: a call that fails for a shape names
two different shapes, unless it puts a matrix beside parts of which the first
misfit is a vector with an element for each row. -/
theorem shapes_eq_iff_of_effect_eq_shapeMismatch {c : Call} {expected got : List Nat}
    (h : c.effect w = some (.error (.shapeMismatch expected got))) :
    expected = got ↔ ∃ places parts, c = .hstack places ∧
      places.mapM (w[·]?) = some parts ∧ HasVectorMisfit parts := by
  by_cases hc : ∃ places, c = .hstack places
  · obtain ⟨places, rfl⟩ := hc
    obtain ⟨parts, hparts, herror⟩ := Option.bind_eq_some_iff.1 h
    rw [hstack_expected_eq_iff (map_eq_error.1 (Option.some.inj herror))]
    constructor
    · exact fun hmisfit => ⟨places, parts, rfl, hparts, hmisfit⟩
    · rintro ⟨places', parts', hplaces, hparts', hmisfit⟩
      obtain rfl := Call.hstack.inj hplaces
      obtain rfl := Option.some.inj (hparts.symm.trans hparts')
      exact hmisfit
  · have hapart := effect_tellsShapesApart (fun places hplaces => hc ⟨places, hplaces⟩) h
    exact iff_of_false (hapart _ _ rfl) fun ⟨places, _, hplaces, _⟩ => hc ⟨places, hplaces⟩

/-- A square, a vector with an element for each of its rows, and a wall that is
higher than the square. -/
def unevenParts : Workspace :=
  [⟨.matrix 2 2, .zeros 4 .f64⟩, ⟨.vector 2, .zeros 2 .f64⟩, ⟨.matrix 3 2, .zeros 6 .f64⟩]

/-- The square beside the wall, and the vector after both. -/
theorem shapes_eq_iff_of_effect_eq_shapeMismatch_unevenParts :
    (Call.hstack [0, 2, 1]).effect unevenParts = some (.error (.shapeMismatch [2, 2] [3, 2]))
      ∧ ([2, 2] = [3, 2] ↔ ∃ places parts, Call.hstack [0, 2, 1] = .hstack places
        ∧ places.mapM (unevenParts[·]?) = some parts ∧ HasVectorMisfit parts) :=
  ⟨rfl, shapes_eq_iff_of_effect_eq_shapeMismatch rfl⟩

/-- The vector is told that its own shape would fit. -/
theorem hstack_vector_unevenParts :
    (Call.hstack [0, 1]).effect unevenParts = some (.error (.shapeMismatch [2] [2])) := rfl

end Workspace

end DenseNumeric
