import DenseNumeric.NumArray.Decomposition
import DenseNumeric.Proofs.CheckedEigensystem
import DenseNumeric.Proofs.CheckedElimination

/-!
# Decompositions within bounds

The inverse and the decompositions of an array, from its planes to the planes
of the results: elements are looked up at their places, the work goes through
a matrix in place, and what comes out has to fill a shape.

A valid array has an element at every place of its shape, and a square one has
a row, so that the work on matrices never goes wrong. Elements may be any,
numbers or not.
-/

namespace DenseNumeric

namespace Checked

variable {n : Nat}

/-! ## From arrays to matrices and back -/

def toMatrix (a : NumArray) (n : Nat) : Checked (DenseMatrix n n (Complex Float)) :=
  tabulate fun i j => do return (← load a.storage (i * n + j)).toComplex

/-- The entries of a matrix, row by row. -/
def elements {E : Type} [Inhabited E] (b : DenseMatrix n n E) : Checked (Array E) := do
  let entries ← ((List.range n).flatMap fun i => (List.range n).map (i, ·)).mapM
    fun (i, j) => entry b i j
  return entries.toArray

/-- Elements that have to fill given extents, none of which may be zero. -/
def fill (dims : List Nat) (storage : Storage) : Checked NumArray :=
  match Shape.ofDims dims with
  | .ok shape =>
    if shape.numel = storage.size then return ⟨shape, storage⟩ else throw .unreachable
  | .error _ => throw .unreachable

def toNumArray (b : DenseMatrix n n (Complex Float)) (dtype : DType) : Checked NumArray := do
  fill [n, n] (.ofComplex (← elements b) dtype)

/-- Elements stored one by one, in order. -/
def storeAll (values : Array (Complex Float)) (dtype : DType) : Checked Storage :=
  values.toList.zipIdx.foldlM (fun out (z, i) => store out i (.complex z))
    (.zeros values.size dtype)

/-- Goes on with the result of a run, if there is one. -/
def onResult {α β : Type} (run : Logged Float (Except Error α)) (f : α → Checked β) :
    Checked (Logged Float (Except Error β)) := do
  match run.value with
  | .error e => return ⟨run.records, .error e⟩
  | .ok x => return ⟨run.records, .ok (← f x)⟩

/-! ## Decompositions -/

/-- The inverse, written to an array of the type `dtype`. -/
def invertTo {E : Type} [Entry E Float] (value : Nat → Nat → Checked E)
    (widen : E → Complex Float) (n : Nat) (pivoting : Pivoting) (dtype : DType) :
    Checked (Logged Float (Except Error NumArray)) := do
  onResult (← inverse (n := n) value pivoting) fun b => do
    fill [n, n] (← storeAll ((← elements b).map widen) dtype)

def inverseArray (a : NumArray) (pivoting : Pivoting) :
    Checked (Logged Float (Except Error NumArray)) :=
  match squareOrder a.dims with
  | .error e => return .quiet (.error e)
  | .ok n =>
    let dtype := a.dtype.floatCounterpart
    if a.isComplex then
      invertTo (fun i j => do return (← load a.storage (i * n + j)).toComplex) (fun z => z) n
        pivoting dtype
    else
      invertTo (fun i j => read a.storage.re (i * n + j)) .ofReal n pivoting dtype

def toFactors (p : Similar n Float) (dtype : DType) : Checked NumArray.Factors := do
  return ⟨← toNumArray (p.basis.getD .identity) dtype, ← toNumArray p.matrix dtype⟩

def hessenbergArray (a : NumArray) : Checked (Except Error NumArray.Factors) := do
  match squareOrder a.dims with
  | .error e => return .error e
  | .ok n =>
    return .ok (← toFactors (← hessenberg (← toMatrix a n) true) a.dtype.complexCounterpart)

def hessenbergInPlace (a : NumArray) : Checked (Except Error NumArray.Factors) :=
  if a.isComplex then hessenbergArray a
  else return .error (.unsupportedDType a.dtype "hessenberg_in_place")

def schurArray (a : NumArray) : Checked (Logged Float (Except Error NumArray.Factors)) := do
  match squareOrder a.dims with
  | .error e => return .quiet (.error e)
  | .ok n =>
    onResult (← schur (← toMatrix a n) defaultLimit) (toFactors · a.dtype.complexCounterpart)

def eig (a : NumArray) (options : EigenOptions) :
    Checked (Logged Float (Except Error NumArray.EigenArrays)) := do
  match squareOrder a.dims with
  | .error e => return .quiet (.error e)
  | .ok n =>
    let dtype := a.dtype.complexCounterpart
    onResult (← eigensystem (← toMatrix a n) options) fun s => do
      let values ← fill [n] (.ofComplex s.values.toArray dtype)
      return ⟨values, ← s.left.mapM (toNumArray · dtype), ← s.right.mapM (toNumArray · dtype)⟩

/-! ## From arrays to matrices and back -/

section Reading

variable {a : NumArray} (ha : a.IsValid) (hn : squareOrder a.dims = .ok n)
include ha hn

omit ha in
theorem entry_eq_loadComplex (i j : Nat) : a.entry i j = a.storage.loadComplex (i * n + j) := by
  rw [NumArray.entry, Shape.eq_matrix_of_dims (NumArray.squareOrder_eq_ok hn)]
  rfl

/-- Every place of a matrix is a place of the planes. -/
theorem offset_lt_size {i j : Nat} (hi : i < n) (hj : j < n) : i * n + j < a.storage.size := by
  rw [ha.size, Shape.eq_matrix_of_dims (NumArray.squareOrder_eq_ok hn)]
  exact Shape.offset_lt_numel (s := .matrix n n) hi hj

theorem load_entry {i j : Nat} (hi : i < n) (hj : j < n) :
    (do return (← load a.storage (i * n + j)).toComplex : Checked (Complex Float))
      = .ok (a.entry i j) := by
  rw [load_eq ha.storage (offset_lt_size ha hn hi hj), ok_bind, Storage.toComplex_load ha.storage,
    entry_eq_loadComplex hn]
  rfl

theorem read_entry {i j : Nat} (hi : i < n) (hj : j < n) :
    read a.storage.re (i * n + j) = .ok (a.entry i j).re := by
  rw [entry_eq_loadComplex hn]
  exact if_pos (offset_lt_size ha hn hi hj)

theorem toMatrix_eq : toMatrix a n = .ok (a.toMatrix n) :=
  tabulate_eq fun _ _ hi hj => load_entry ha hn hi hj

end Reading

theorem elements_eq {E : Type} [Inhabited E] (b : DenseMatrix n n E) :
    elements b = .ok ((Shape.matrix n n).tabulate b) := by
  have hentries : ((List.range n).flatMap fun i => (List.range n).map (i, ·)).mapM
      (fun p => entry b p.1 p.2) = .ok ((Shape.matrix n n).tabulate b).toList := by
    rw [Shape.toList_tabulate]
    exact mapM_pairs_eq_ok fun i j hi hj => entry_eq hi hj
  rw [elements, hentries]
  rfl

theorem fill_eq {s : Shape} {storage : Storage} (hs : s.IsPositive)
    (hsize : storage.size = s.numel) : fill s.dims storage = .ok ⟨s, storage⟩ := by
  rw [fill, Shape.ofDims_dims hs]
  exact if_pos hsize.symm

theorem toNumArray_eq (hn : 0 < n) (b : DenseMatrix n n (Complex Float)) (dtype : DType) :
    toNumArray b dtype = .ok (b.toNumArray dtype) := by
  rw [toNumArray, elements_eq, ok_bind]
  refine fill_eq (s := .matrix n n) ⟨hn, hn⟩ ?_
  rw [Storage.size_ofComplex, Shape.size_tabulate]

/-- The loop of `storeAll`, which cannot go wrong: there is a place for each
element. -/
theorem storeAll_eq_foldl (values : Array (Complex Float)) (dtype : DType) :
    storeAll values dtype = .ok ((values.toList.zipIdx.map fun p => (p.2, p.2)).foldl
      (fun out (place, k) => out.store place (.complex (values.getD k 0)))
      (.zeros values.size dtype)) := by
  rw [List.foldl_map]
  refine foldlM_eq_ok (P := fun out => out.IsValid ∧ out.size = values.size) ?_
    ⟨Storage.zeros_isValid _ _, Storage.size_zeros _ _⟩
  rintro out ⟨hout, hsize⟩ ⟨z, i⟩ hp
  have hget : values.toList[i]? = some z := List.mem_zipIdx_iff_getElem?.1 hp
  obtain ⟨hi, hz⟩ := List.getElem?_eq_some_iff.1 hget
  have hvalue : values.getD i 0 = z := (dif_pos hi).trans hz
  refine ⟨?_, Storage.storeComplex_isValid hout _ _, (Storage.size_storeComplex _ _ _).trans hsize⟩
  simp only [hvalue]
  exact store_eq hout (Nat.lt_of_lt_of_eq hi hsize.symm) _

theorem storeAll_eq (values : Array (Complex Float)) (dtype : DType) :
    storeAll values dtype = .ok (.ofComplex values dtype) := by
  rw [storeAll_eq_foldl]
  generalize hpairs : (values.toList.zipIdx.map fun p => (p.2, p.2)) = pairs
  let value (k : Nat) : Scalar := .complex (values.getD k 0)
  have hzeros := Storage.zeros_isValid values.size dtype
  have hsize := Storage.foldl_store_induction (P := fun t => t.size = values.size)
    (Storage.size_zeros values.size dtype)
    (fun t i z h => (Storage.size_storeComplex t i z).trans h) pairs value
  refine congrArg Except.ok (Storage.ext_of_loadComplex ?_ (Storage.ofComplex_isValid _ _) ?_ ?_
    fun i hi => ?_)
  · exact Storage.foldl_store_induction hzeros (fun _ i z h => Storage.storeComplex_isValid h i z)
      pairs value
  · exact Storage.foldl_store_induction (P := fun t => t.dtype = dtype) rfl (fun _ _ _ h => h)
      pairs value
  · exact hsize.trans (Storage.size_ofComplex _ _).symm
  · have hi' : i < values.size := Nat.lt_of_lt_of_eq hi hsize
    have hvalue : values.getD i 0 = values[i] := dif_pos hi'
    rw [Storage.loadComplex_ofComplex hi', ← hvalue]
    refine Storage.loadComplex_foldl_store hzeros value (k := i) ?_ ?_ ?_
    · rw [← hpairs, List.map_map,
        show Prod.fst ∘ (fun p : Complex Float × Nat => (p.2, p.2)) = Prod.snd from rfl,
        List.zipIdx_map_snd]
      exact List.nodup_range' ..
    · rw [← hpairs]
      exact List.mem_map.2 ⟨(values[i], i), List.mem_zipIdx_iff_getElem?.2 (by simp [hi']), rfl⟩
    · exact Nat.lt_of_lt_of_eq hi' (Storage.size_zeros _ _).symm

theorem onResult_eq {α β : Type} {run : Logged Float (Except Error α)} {f : α → Checked β}
    {g : α → β} (h : ∀ x, run.value = .ok x → f x = .ok (g x)) :
    onResult run f = .ok (run.map fun r => r.map g) := by
  obtain ⟨records, value⟩ := run
  cases value with
  | error e => rfl
  | ok x =>
      rw [onResult]
      simp only [h x rfl]
      rfl

/-! ## Decompositions -/

theorem invertTo_eq {E : Type} [Entry E Float] {value : Nat → Nat → Checked E}
    {b : DenseMatrix n n E} {widen : E → Complex Float}
    {widened : DenseMatrix n n E → DenseMatrix n n (Complex Float)} (hn : 0 < n)
    (h : ∀ i j, i < n → j < n → value i j = .ok (b i j))
    (hwiden : ∀ b i j, i < n → j < n → widened b i j = widen (b i j))
    (pivoting : Pivoting) (dtype : DType) :
    invertTo value widen n pivoting dtype
      = .ok ((b.inverse pivoting).map fun r => r.map fun b => (widened b).toNumArray dtype) := by
  rw [invertTo, inverse_eq h, ok_bind]
  refine onResult_eq fun b _ => ?_
  have hmap : ((Shape.matrix n n).tabulate b).map widen
      = (Shape.matrix n n).tabulate (widened b) := by
    refine Array.ext' ?_
    rw [Array.toList_map, Shape.toList_tabulate, Shape.toList_tabulate, List.map_flatMap]
    refine List.flatMap_congr fun i hi => ?_
    rw [List.map_map]
    exact List.map_congr_left fun j hj =>
      (hwiden b i j (List.mem_range.1 hi) (List.mem_range.1 hj)).symm
  rw [elements_eq, ok_bind, hmap, storeAll_eq, ok_bind]
  refine fill_eq (s := .matrix n n) ⟨hn, hn⟩ ?_
  rw [Storage.size_ofComplex, Shape.size_tabulate]

theorem toFactors_eq (hn : 0 < n) (p : Similar n Float) (dtype : DType) :
    toFactors p dtype = .ok (.ofSimilar p dtype) := by
  rw [toFactors, toNumArray_eq hn, ok_bind, toNumArray_eq hn]
  rfl

section Arrays

variable {a : NumArray} (ha : a.IsValid)
include ha

theorem inverseArray_eq (pivoting : Pivoting) :
    inverseArray a pivoting = .ok (a.inverseWith pivoting) := by
  unfold inverseArray NumArray.inverseWith
  cases hn : squareOrder a.dims with
  | error e => rfl
  | ok n =>
      have hpos := NumArray.pos_of_squareOrder ha hn
      dsimp only
      split
      · refine invertTo_eq hpos (fun i j hi hj => ?_) (fun _ _ _ _ _ => rfl) pivoting _
        rw [NumArray.toMatrix, DenseMatrix.get_ofFn, if_pos ⟨hi, hj⟩]
        exact load_entry ha hn hi hj
      · refine invertTo_eq hpos (fun i j hi hj => ?_) (fun b i j hi hj => ?_) pivoting _
        · rw [DenseMatrix.get_ofFn, if_pos ⟨hi, hj⟩]
          exact read_entry ha hn hi hj
        · exact (DenseMatrix.get_ofFn _ _ _).trans (if_pos ⟨hi, hj⟩)

theorem hessenbergArray_eq : hessenbergArray a = .ok a.hessenberg := by
  unfold hessenbergArray NumArray.hessenberg
  cases hn : squareOrder a.dims with
  | error e => rfl
  | ok n =>
      have hpos := NumArray.pos_of_squareOrder ha hn
      simp only [toMatrix_eq ha hn, hessenberg_eq hpos, toFactors_eq hpos, ok_bind]
      rfl

theorem hessenbergInPlace_eq : hessenbergInPlace a = .ok a.hessenbergInPlace := by
  unfold hessenbergInPlace NumArray.hessenbergInPlace
  split
  · exact hessenbergArray_eq ha
  · rfl

theorem schurArray_eq : schurArray a = .ok a.schur := by
  unfold schurArray NumArray.schur
  cases hn : squareOrder a.dims with
  | error e => rfl
  | ok n =>
      have hpos := NumArray.pos_of_squareOrder ha hn
      simp only [toMatrix_eq ha hn, schur_eq hpos, ok_bind]
      exact onResult_eq fun p _ => toFactors_eq hpos p _

theorem eig_eq (options : EigenOptions) : eig a options = .ok (a.eig options) := by
  unfold eig NumArray.eig
  cases hn : squareOrder a.dims with
  | error e => rfl
  | ok n =>
      have hpos := NumArray.pos_of_squareOrder ha hn
      have hone : ((1 : Float) == 1) = true := by rfl
      simp only [toMatrix_eq ha hn, eigensystem_eq hpos hone, ok_bind]
      refine onResult_eq fun s hs => ?_
      have hvalues (dtype : DType) : fill [n] (.ofComplex s.values.toArray dtype)
          = .ok ⟨.vector n, .ofComplex s.values.toArray dtype⟩ := by
        refine fill_eq (s := .vector n) ⟨Nat.one_pos, hpos⟩ ?_
        rw [Storage.size_ofComplex, List.size_toArray, DenseMatrix.length_values_of_eigensystem hs]
        exact (Nat.one_mul n).symm
      have hvectors (o : Option (DenseMatrix n n (Complex Float))) (dtype : DType) :
          o.mapM (toNumArray · dtype) = .ok (o.map (·.toNumArray dtype)) :=
        option_mapM_eq_ok fun v _ => toNumArray_eq hpos v dtype
      simp only [hvalues, hvectors, ok_bind]
      rfl

end Arrays

end Checked

namespace NumArray

/-- No inverse or decomposition of a valid array looks up or changes a place
that is not there, or takes more from an index than it has; and whenever the
iteration looks for a shift or makes a sweep, its block is one of two rows or
more within the matrix. -/
theorem decompositions_within_bounds {a : NumArray} (ha : a.IsValid) :
    (∀ pivoting, Checked.inverseArray a pivoting = .ok (a.inverseWith pivoting))
      ∧ Checked.hessenbergArray a = .ok a.hessenberg
      ∧ Checked.hessenbergInPlace a = .ok a.hessenbergInPlace
      ∧ Checked.schurArray a = .ok a.schur
      ∧ (∀ options, Checked.eig a options = .ok (a.eig options))
      ∧ ∀ (n : Nat) (p : Similar n Float) (norm : Float) (limit t : Nat),
          let s := QrState.after norm ⟨p, 0, n, 0, 0, []⟩ t
          s.IsActive limit → s.low + 2 ≤ s.high ∧ s.high ≤ n := by
  refine ⟨Checked.inverseArray_eq ha, Checked.hessenbergArray_eq ha,
    Checked.hessenbergInPlace_eq ha, Checked.schurArray_eq ha, Checked.eig_eq ha, ?_⟩
  intro n p norm limit t s hactive
  have hwithin : s.IsWithin := (QrState.IsWithin.start p).after norm t
  exact ⟨hwithin.low_add_two_le hactive.1, hwithin.high_le⟩

/-- Undefined and infinite elements: the pivots, the scales and the shifts are
undefined as well. -/
theorem decompositions_within_bounds_undefined :
    let m : DenseMatrix 3 3 (Complex Float) :=
      .ofFn fun i j => if i = j then ⟨0 / 0, 0⟩ else ⟨1 / 0, 1⟩
    let a := m.toNumArray .c64
    a.IsValid
      ∧ Checked.inverseArray a .largest = .ok (a.inverseWith .largest)
      ∧ Checked.hessenbergInPlace a = .ok a.hessenbergInPlace
      ∧ Checked.schurArray a = .ok a.schur
      ∧ Checked.eig a ⟨true, true, 60⟩ = .ok (a.eig ⟨true, true, 60⟩)
      ∧ QrState.IsActive 60 (⟨⟨m, none⟩, 0, 3, 0, 0, []⟩ : QrState 3 Float)
      ∧ 0 + 2 ≤ 3 ∧ 3 ≤ 3 := by
  intro m a
  have ha : a.IsValid := toNumArray_isValid (by decide) m .c64
  have hactive : QrState.IsActive 60 (⟨⟨m, none⟩, 0, 3, 0, 0, []⟩ : QrState 3 Float) := by
    constructor <;> decide
  obtain ⟨hinverse, -, hinPlace, hschur, heig, hblock⟩ := decompositions_within_bounds ha
  exact ⟨ha, hinverse _, hinPlace, hschur, heig _, hactive, hblock 3 ⟨m, none⟩ 0 60 0 hactive⟩

end NumArray

end DenseNumeric
