import DenseNumeric.NumArray.Decomposition
import DenseNumeric.Proofs.Results
import DenseNumeric.Proofs.StorageAccess
import DenseNumeric.Proofs.ZeroPattern

/-!
# Eigenvalues and what else is asked for

A run keeps the basis of its matrix only where eigenvectors are wanted, and
never reads it. `Similar.forget` drops the basis, and every step of a run
commutes with it: what a run does to the matrix, when it ends and what it
records are the same with a basis and without. So the eigenvalues of an array
are the same whatever else is asked for, and are the diagonal of its Schur
form.

Nothing is asked of the arithmetic. The results are equal as data, errors
included.
-/

namespace DenseNumeric

variable {n : Nat}

section Runs

variable {R : Type}

/-- The matrix without its basis. -/
def Similar.forget (p : Similar n R) : Similar n R := { p with basis := none }

/-- The same state, with no basis to keep. -/
def QrState.forget (s : QrState n R) : QrState n R := { s with current := s.current.forget }

@[simp] theorem Similar.matrix_forget (p : Similar n R) : p.forget.matrix = p.matrix := rfl

theorem QrState.outcome_forget (s : QrState n R) :
    s.forget.outcome = s.outcome.map (·.map Similar.forget) := by
  by_cases h : s.high < 2
  · rw [outcome, outcome, if_pos h, if_pos (show s.forget.high < 2 from h)]
    rfl
  · rw [outcome, outcome, if_neg h, if_neg (show ¬s.forget.high < 2 from h)]
    rfl

variable [Arith R]

/-! ## A run without its basis -/

namespace Similar

theorem rotate_forget (p : Similar n R) (g : Rotation R) (r high : Nat) :
    p.forget.rotate g r high = (p.rotate g r high).forget := rfl

theorem chase_forget (p : Similar n R) (high j : Nat) :
    p.forget.chase high j = (p.chase high j).forget := rfl

theorem sweep_forget (p : Similar n R) (low high : Nat) (shift : Complex R) :
    p.forget.sweep low high shift = (p.sweep low high shift).forget := by
  simp only [sweep, matrix_forget, rotate_forget]
  exact List.foldl_hom forget fun p j => chase_forget p high j

end Similar

namespace QrState

theorem deflate_forget (s : QrState n R) (k : Nat) :
    s.forget.deflate k = (s.deflate k).forget := rfl

/-- The shift is read off the matrix alone. -/
theorem sweep_forget (s : QrState n R) (norm : R) :
    s.forget.sweep norm = (s.sweep norm).forget :=
  congrArg (fun p : Similar n R => { s with
    current := p
    iterations := s.iterations + 1
    sweeps := s.sweeps + 1 }) (s.current.sweep_forget s.low s.high (s.shift norm))

theorem step_forget (s : QrState n R) (norm : R) : s.forget.step norm = (s.step norm).forget := by
  have hfound : s.forget.negligible? norm = s.negligible? norm := rfl
  rw [step, step, hfound]
  cases s.negligible? norm with
  | some k => exact deflate_forget s k
  | none => exact sweep_forget s norm

theorem run_forget (norm : R) (limit : Nat) (s : QrState n R) :
    run norm limit s.forget = (run norm limit s).forget := by
  induction s using run.induct norm limit with
  | case1 s h => rw [run_of_lt h, run_of_lt (s := s.forget) h]
  | case2 s h ih =>
      have hhigh : 2 ≤ s.high := by omega
      have hits : s.iterations ≤ limit := by omega
      rw [run_of_le hhigh hits, run_of_le (s := s.forget) hhigh hits, step_forget, ih]

end QrState

/-- With and without a basis a run has the same records, and comes to the same
matrix or the same error. -/
theorem Similar.triangularize_forget (p : Similar n R) (limit : Nat) :
    p.forget.triangularize limit = (p.triangularize limit).map (·.map forget) := by
  by_cases h : (decide (n ≤ 1) || meanNorm p.matrix == 0) = true
  · rw [triangularize, triangularize, if_pos h, if_pos (by exact h)]
    rfl
  · rw [triangularize, triangularize, if_neg h, if_neg (by exact h), ← QrState.outcome_forget,
      ← QrState.run_forget]
    rfl

/-! ## A basis stays -/

namespace Similar

theorem isSome_basis_rotate (p : Similar n R) (g : Rotation R) (r high : Nat) :
    (p.rotate g r high).basis.isSome = p.basis.isSome := Option.isSome_map

theorem isSome_basis_sweep (p : Similar n R) (low high : Nat) (shift : Complex R) :
    (p.sweep low high shift).basis.isSome = p.basis.isSome :=
  foldl_ascending (P := fun _ (q : Similar n R) => q.basis.isSome = p.basis.isSome)
    (isSome_basis_rotate p _ _ _) fun _ _ _ _ hq => (isSome_basis_rotate _ _ _ _).trans hq

theorem isSome_basis_triangularize {p q : Similar n R} {limit : Nat}
    (h : (p.triangularize limit).value = .ok q) : q.basis.isSome = p.basis.isSome := by
  have step (norm : R) (s : QrState n R) :
      (s.step norm).current.basis.isSome = s.current.basis.isSome := by
    unfold QrState.step
    split
    · rfl
    · exact isSome_basis_sweep _ _ _ _
  have run (norm : R) (s : QrState n R) :
      (QrState.run norm limit s).current.basis.isSome = s.current.basis.isSome :=
    QrState.run_induction (P := fun t => t.current.basis.isSome = s.current.basis.isSome)
      rfl fun t _ _ ht => (step norm t).trans ht
  rcases value_triangularize_eq_ok h with ⟨-, rfl⟩ | ⟨-, -, -, rfl⟩
  · rfl
  · exact run _ _

end Similar

end Runs

/-! ## Eigenvalues of a working matrix -/

namespace DenseMatrix

variable {R : Type} [Arith R]

theorem forget_hessenberg (a : DenseMatrix n n (Complex R)) (withBasis : Bool) :
    (a.hessenberg withBasis).forget = a.hessenberg false := rfl

/-- What is read off the matrix of a triangular form, or the error of the run,
is the same with and without a basis. -/
theorem map_triangularize_hessenberg {β : Type} (a : DenseMatrix n n (Complex R))
    (withBasis : Bool) (limit : Nat) (f : DenseMatrix n n (Complex R) → β) :
    ((a.hessenberg withBasis).triangularize limit).value.map (fun p => f p.matrix)
      = ((a.hessenberg false).triangularize limit).value.map (fun p => f p.matrix) := by
  rw [← forget_hessenberg a withBasis, Similar.triangularize_forget, Logged.map]
  cases ((a.hessenberg withBasis).triangularize limit).value with
  | error e => rfl
  | ok p => rfl

/-- A single number is its own triangular form. -/
theorem triangularize_of_order_one {p : Similar n R} (hn : n = 1) (limit : Nat) :
    (p.triangularize limit).value = .ok p := by
  rw [Similar.triangularize, if_pos (by simp [hn])]
  rfl

theorem eigensystem_of_ne_one {a : DenseMatrix n n (Complex R)} {options : EigenOptions}
    (hn : n ≠ 1) :
    (a.eigensystem options).value
      = ((a.hessenberg (options.left || options.right)).triangularize
          options.maxIterations).value.map (eigensystemOf · options) := by
  rw [eigensystem, if_neg hn]
  dsimp only [Logged.andThen]
  cases ((a.hessenberg (options.left || options.right)).triangularize
      options.maxIterations).value with
  | error e => rfl
  | ok p => rfl

theorem hessenberg_of_order_one {a : DenseMatrix n n (Complex R)} (hn : n = 1)
    (withBasis : Bool) : (a.hessenberg withBasis).matrix = a := by
  subst hn
  rfl

/-- Eigenvalues are the diagonal of a triangular form that is reached without
a basis. -/
theorem values_eigensystem (a : DenseMatrix n n (Complex R)) (options : EigenOptions) :
    (a.eigensystem options).value.map Eigensystem.values
      = ((a.hessenberg false).triangularize options.maxIterations).value.map
          (·.matrix.diagonal) := by
  by_cases hn : n = 1
  · rw [triangularize_of_order_one hn, eigensystem, if_pos hn]
    show Except.ok a.diagonal = .ok (a.hessenberg false).matrix.diagonal
    rw [hessenberg_of_order_one hn]
  · rw [eigensystem_of_ne_one hn, ← map_triangularize_hessenberg a
      (options.left || options.right) options.maxIterations diagonal]
    cases ((a.hessenberg (options.left || options.right)).triangularize
        options.maxIterations).value with
    | error e => rfl
    | ok p => rfl

/-- Right eigenvectors are there when they are asked for, and are the same
whatever is asked about left ones. -/
theorem right_eigensystem (a : DenseMatrix n n (Complex R)) (left : Bool) (limit : Nat) :
    (a.eigensystem ⟨left, true, limit⟩).value.map Eigensystem.right
      = (a.eigensystem ⟨false, true, limit⟩).value.map Eigensystem.right := by
  by_cases hn : n = 1
  · rw [eigensystem, eigensystem, if_pos hn, if_pos hn]
    rfl
  · rw [eigensystem_of_ne_one hn, eigensystem_of_ne_one hn, Bool.or_true, Bool.or_true]
    cases ((a.hessenberg true).triangularize limit).value with
    | error e => rfl
    | ok p => rfl

theorem left_eigensystem (a : DenseMatrix n n (Complex R)) (right : Bool) (limit : Nat) :
    (a.eigensystem ⟨true, right, limit⟩).value.map Eigensystem.left
      = (a.eigensystem ⟨true, false, limit⟩).value.map Eigensystem.left := by
  by_cases hn : n = 1
  · rw [eigensystem, eigensystem, if_pos hn, if_pos hn]
    rfl
  · rw [eigensystem_of_ne_one hn, eigensystem_of_ne_one hn, Bool.true_or, Bool.true_or]
    cases ((a.hessenberg true).triangularize limit).value with
    | error e => rfl
    | ok p => rfl

/-- The eigenvectors that come with eigenvalues are those that were asked for. -/
theorem isSome_vectors_eigensystem {a : DenseMatrix n n (Complex R)} {options : EigenOptions}
    {s : Eigensystem n R} (h : (a.eigensystem options).value = .ok s) :
    s.left.isSome = options.left ∧ s.right.isSome = options.right := by
  obtain ⟨left, right, limit⟩ := options
  by_cases hn : n = 1
  · rw [eigensystem, if_pos hn] at h
    cases h
    cases left <;> cases right <;> exact ⟨rfl, rfl⟩
  · rw [eigensystem_of_ne_one hn] at h
    obtain ⟨p, hp, rfl⟩ := map_eq_ok.1 h
    have hbasis := Similar.isSome_basis_triangularize hp
    rw [hessenberg] at hbasis
    cases left <;> cases right <;> simp_all [eigensystemOf]

end DenseMatrix

/-! ## Eigenvalues of an array -/

/-- The diagonal of a square array, as a vector. -/
def NumArray.diagonal (a : NumArray) : NumArray :=
  a.rearrange (.vector a.nrows) fun _ j => a.shape.offset j j

theorem Shape.tabulate_vector {α : Type} (n : Nat) (f : Nat → Nat → α) :
    (vector n).tabulate f = (Array.range n).map (f 0) := by
  refine Array.ext' ?_
  simp [toList_tabulate, rows, cols]

theorem DenseMatrix.diagonal_toNumArray (a : DenseMatrix n n (Complex Float)) (dtype : DType) :
    (a.toNumArray dtype).diagonal = ⟨.vector n, .ofComplex a.diagonal.toArray dtype⟩ := by
  refine congrArg (NumArray.mk (.vector n)) ?_
  show (Storage.ofComplex ((Shape.matrix n n).tabulate a) dtype).pick
    ((Shape.vector n).tabulate fun _ j => (Shape.matrix n n).offset j j) = _
  rw [Shape.tabulate_vector, Storage.pick_ofComplex, Array.map_map]
  · refine congrArg (Storage.ofComplex · dtype) (Array.ext' ?_)
    rw [Array.toList_map, Array.toList_range, diagonal]
    refine List.map_congr_left fun k hk => ?_
    exact Shape.getD_tabulate (s := .matrix n n) (List.mem_range.1 hk) (List.mem_range.1 hk) _ _
  · intro i hi
    obtain ⟨k, hk, rfl⟩ := Array.mem_map.1 hi
    rw [Array.mem_range] at hk
    exact Shape.offset_lt_size_tabulate (s := .matrix n n) hk hk a

namespace NumArray

variable {a : NumArray}

theorem value_eig_of_order {n : Nat} (h : squareOrder a.dims = .ok n) (options : EigenOptions) :
    (a.eig options).value = ((a.toMatrix n).eigensystem options).value.map fun s =>
      { values := ⟨.vector n, .ofComplex s.values.toArray a.dtype.complexCounterpart⟩
        left := s.left.map (·.toNumArray a.dtype.complexCounterpart)
        right := s.right.map (·.toNumArray a.dtype.complexCounterpart) } := by
  simp only [eig, h]
  rfl

theorem value_eig_of_error {e : Error} (h : squareOrder a.dims = .error e)
    (options : EigenOptions) : (a.eig options).value = .error e := by
  simp only [eig, h]
  rfl

/-- The eigenvalues of an array, by way of a run without a basis. -/
def eigenvaluesWithin (a : NumArray) (limit : Nat) : Except Error NumArray :=
  (squareOrder a.dims).bind fun n =>
    (((a.toMatrix n).hessenberg false).triangularize limit).value.map fun p =>
      ⟨.vector n, .ofComplex p.matrix.diagonal.toArray a.dtype.complexCounterpart⟩

theorem values_eig (a : NumArray) (options : EigenOptions) :
    (a.eig options).value.map EigenArrays.values = a.eigenvaluesWithin options.maxIterations := by
  cases h : squareOrder a.dims with
  | error e =>
      rw [value_eig_of_error h, eigenvaluesWithin, h]
      rfl
  | ok n =>
      have hvalues := congrArg (·.map fun zs : List (Complex Float) =>
        (⟨.vector n, .ofComplex zs.toArray a.dtype.complexCounterpart⟩ : NumArray))
        ((a.toMatrix n).values_eigensystem options)
      simp only [map_map] at hvalues
      rw [value_eig_of_order h, map_map, eigenvaluesWithin, h]
      exact hvalues

theorem diagonal_form_schur (a : NumArray) :
    a.schur.value.map (fun f => f.form.diagonal) = a.eigenvaluesWithin defaultLimit := by
  cases h : squareOrder a.dims with
  | error e =>
      simp only [schur, eigenvaluesWithin, h]
      rfl
  | ok n =>
      have hdiagonal (p : Similar n Float) :
          (Factors.ofSimilar p a.dtype.complexCounterpart).form.diagonal
            = ⟨.vector n, .ofComplex p.matrix.diagonal.toArray a.dtype.complexCounterpart⟩ :=
        p.matrix.diagonal_toNumArray _
      simp only [schur, eigenvaluesWithin, h, Logged.map, map_map, hdiagonal, Except.bind]
      exact DenseMatrix.map_triangularize_hessenberg (a.toMatrix n) true defaultLimit
        fun t : DenseMatrix n n (Complex Float) =>
          (⟨.vector n, .ofComplex t.diagonal.toArray a.dtype.complexCounterpart⟩ : NumArray)

theorem right_eig (a : NumArray) (left : Bool) (limit : Nat) :
    (a.eig ⟨left, true, limit⟩).value.map EigenArrays.right
      = (a.eig ⟨false, true, limit⟩).value.map EigenArrays.right := by
  cases h : squareOrder a.dims with
  | error e => rw [value_eig_of_error h, value_eig_of_error h]
  | ok n =>
      have hright := congrArg
        (·.map (Option.map (DenseMatrix.toNumArray · a.dtype.complexCounterpart)))
        ((a.toMatrix n).right_eigensystem left limit)
      simp only [map_map] at hright
      rw [value_eig_of_order h, value_eig_of_order h, map_map, map_map]
      exact hright

theorem left_eig (a : NumArray) (right : Bool) (limit : Nat) :
    (a.eig ⟨true, right, limit⟩).value.map EigenArrays.left
      = (a.eig ⟨true, false, limit⟩).value.map EigenArrays.left := by
  cases h : squareOrder a.dims with
  | error e => rw [value_eig_of_error h, value_eig_of_error h]
  | ok n =>
      have hleft := congrArg
        (·.map (Option.map (DenseMatrix.toNumArray · a.dtype.complexCounterpart)))
        ((a.toMatrix n).left_eigensystem right limit)
      simp only [map_map] at hleft
      rw [value_eig_of_order h, value_eig_of_order h, map_map, map_map]
      exact hleft

theorem isSome_vectors_eig {options : EigenOptions} {e : EigenArrays}
    (h : (a.eig options).value = .ok e) :
    e.left.isSome = options.left ∧ e.right.isSome = options.right := by
  cases hn : squareOrder a.dims with
  | error e =>
      rw [value_eig_of_error hn] at h
      cases h
  | ok n =>
      rw [value_eig_of_order hn] at h
      obtain ⟨s, hs, rfl⟩ := map_eq_ok.1 h
      obtain ⟨hleft, hright⟩ := DenseMatrix.isSome_vectors_eigensystem hs
      exact ⟨Option.isSome_map.trans hleft, Option.isSome_map.trans hright⟩

/-- What is asked for besides eigenvalues has no influence on them, on the
error in their place, or on eigenvectors of the other side; and the vectors
that are there are those that were asked for. Eigenvalues are the diagonal of
the Schur form, which is found, or fails to be found, along with them. -/
theorem eig_independent_of_request (a : NumArray) (limit : Nat) :
    (∀ left right left' right',
      (a.eig ⟨left, right, limit⟩).value.map EigenArrays.values
        = (a.eig ⟨left', right', limit⟩).value.map EigenArrays.values) ∧
    (∀ left left',
      (a.eig ⟨left, true, limit⟩).value.map EigenArrays.right
        = (a.eig ⟨left', true, limit⟩).value.map EigenArrays.right) ∧
    (∀ right right',
      (a.eig ⟨true, right, limit⟩).value.map EigenArrays.left
        = (a.eig ⟨true, right', limit⟩).value.map EigenArrays.left) ∧
    (∀ left right,
      (a.eig ⟨left, right, limit⟩).value.map (fun e => (e.left.isSome, e.right.isSome))
        = (a.eig ⟨left, right, limit⟩).value.map fun _ => (left, right)) ∧
    (∀ left right,
      a.eigvals.value = (a.eig ⟨left, right, 60⟩).value.map EigenArrays.values) ∧
    a.eigvals.value = a.schur.value.map fun f => f.form.diagonal := by
  have hvalues (options : EigenOptions) := a.values_eig options
  have heigvals : a.eigvals.value = a.eigenvaluesWithin defaultLimit := hvalues .valuesOnly
  refine ⟨fun left right left' right' => ?_, fun left left' => ?_, fun right right' => ?_,
    fun left right => ?_, fun left right => ?_, ?_⟩
  · rw [hvalues, hvalues]
  · rw [right_eig a left, right_eig a left']
  · rw [left_eig a right, left_eig a right']
  · cases h : (a.eig ⟨left, right, limit⟩).value with
    | error e => rfl
    | ok e =>
        obtain ⟨hleft, hright⟩ := isSome_vectors_eig h
        exact congrArg Except.ok (Prod.ext hleft hright)
  · rw [heigvals, hvalues]
    rfl
  · rw [heigvals, diagonal_form_schur]

end NumArray

end DenseNumeric
