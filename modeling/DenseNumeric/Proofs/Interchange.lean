import DenseNumeric.Proofs.Gatherings

/-!
# Structural and elementwise operations

An elementwise operation makes each element of its result from the element at
the same place, or from the two elements there; a structural one moves elements
and leaves them as they are. So it does not matter which of the two comes first.

No law of arithmetic has a part in this. What an element is made into depends on
the element and on the types of the arrays, not on its place, and it is rounded
once on either way (`Elementwise.loadComplex_apply`). The type is the reason why
arrays that are to be stacked have one type beforehand: a conversion could give
them one only afterwards, and with a scalar the type decides how it is computed.
-/

namespace DenseNumeric

/-! ## Elementwise operations -/

/-- The operations that make an element from one element. -/
inductive Elementwise where
  | astype (dtype : DType)
  | neg
  | conj
  | scalar (op : BinaryOp) (x : Scalar)

namespace Elementwise

open NumArray

def apply : Elementwise → NumArray → NumArray
  | astype d, a => a.astype d
  | neg, a => a.neg
  | conj, a => a.conj
  | scalar op x, a => combineScalar op a x

/-- The type of the result, for an array of type `d`. -/
def resultType : Elementwise → DType → DType
  | astype d', _ => d'
  | _, d => d

/-- What an element is made into, before it is rounded. -/
def onElement : Elementwise → DType → Complex Float → Complex Float
  | astype _, _, z => z
  | neg, _, z => -z
  | conj, _, z => z.conj
  | scalar op x, d, z => op.onElements (d.isComplex || x.isComplex) z x.toComplex

variable {a c : NumArray} {axis : Axis} {parts : List NumArray} {g : Gathering}

@[simp] theorem shape_apply (e : Elementwise) (a : NumArray) : (e.apply a).shape = a.shape := by
  cases e <;> rfl

@[simp] theorem extent_apply (e : Elementwise) (a : NumArray) (axis : Axis) :
    (e.apply a).extent axis = a.extent axis := by
  rw [extent, shape_apply, extent]

theorem dtype_apply (e : Elementwise) (a : NumArray) :
    (e.apply a).dtype = e.resultType a.dtype := by
  cases e with
  | astype d => exact Storage.dtype_cast _ _
  | neg | conj | scalar op x => rfl

theorem apply_isValid (e : Elementwise) (ha : a.IsValid) : (e.apply a).IsValid := by
  cases e with
  | astype d => exact astype_isValid ha d
  | neg | conj | scalar op x => exact mapElements_isValid ha _

/-- Every element is made from the one at the same place, and rounded once. -/
theorem loadComplex_apply (e : Elementwise) (ha : a.IsValid) {i : Nat}
    (hi : i < a.storage.size) :
    (e.apply a).storage.loadComplex i
      = (e.resultType a.dtype).element (e.onElement a.dtype (a.storage.loadComplex i)) := by
  cases e with
  | astype d => exact Storage.loadComplex_cast ha.storage d hi
  | neg | conj | scalar op x => exact loadComplex_mapElements _ hi

theorem entryOn_apply (e : Elementwise) (ha : a.IsValid) {k l : Nat} (hk : k < a.extent axis)
    (hl : l < a.extent axis.other) :
    (e.apply a).entryOn axis k l
      = (e.resultType a.dtype).element (e.onElement a.dtype (a.entryOn axis k l)) := by
  have hentry {i j : Nat} (hi : i < a.nrows) (hj : j < a.ncols) :
      (e.apply a).entry i j
        = (e.resultType a.dtype).element (e.onElement a.dtype (a.entry i j)) := by
    rw [entry, shape_apply, e.loadComplex_apply ha (offset_lt_size_of_isValid ha hi hj), entry]
  cases axis with
  | rows => exact hentry hk hl
  | cols => exact hentry hl hk

/-! ## Before or after elements are moved -/

/-- It is the same to move elements first or to work on them first. -/
theorem gather_apply (e : Elementwise) (ha : a.IsValid) (hg : g.IsIn a.shape) :
    (e.apply a).gather g = e.apply (a.gather g) := by
  have hgather := gather_isValid ha hg
  have hshape : (e.apply a).shape = a.shape := e.shape_apply a
  refine ext_of_loadComplex (gather_isValid (e.apply_isValid ha) (hshape ▸ hg))
    (e.apply_isValid hgather) ?_ (e.shape_apply (a.gather g)).symm fun k hk => ?_
  · exact (e.dtype_apply a).trans (e.dtype_apply (a.gather g)).symm
  · have hk' : k < g.places.size := by rwa [hg.size]
    have hplace : g.places[k] < a.storage.size := by
      rw [ha.size]
      exact hg.lt _ (Array.getElem_mem hk')
    rw [loadComplex_gather _ hk', e.loadComplex_apply ha hplace,
      e.loadComplex_apply hgather (by rwa [hgather.size]), loadComplex_gather _ hk']
    rfl

/-- What is made of the parts of a stack makes the stack of them. -/
theorem isStack_apply (e : Elementwise) (hc : c.IsValid) (hparts : ∀ part ∈ parts, part.IsValid)
    (h : IsStack axis parts c) : IsStack axis (parts.map e.apply) (e.apply c) := by
  refine h.map (fun part hpart => ?_) (fun part hpart => ?_)
    (fun part _ => e.extent_apply part axis) (e.extent_apply c axis) fun n hn k hk l hl => ?_
  · rw [dtype_apply, dtype_apply, h.dtype part hpart]
  · rw [shape_apply, shape_apply, extent_apply]
    exact h.shape part hpart
  · have hmem := List.getElem_mem hn
    have hplace : partStart axis parts n + k < c.extent axis := by
      rw [h.extent]
      exact partStart_add_lt hn hk
    rw [extent_apply] at hl
    rw [e.entryOn_apply hc hplace hl,
      e.entryOn_apply (hparts _ hmem) hk (by rwa [h.extent_other hmem]), h.dtype _ hmem,
      h.entry n hn k hk l hl]

/-- Arrays of one type can be stacked exactly if what is made of them can be, and
the stacks are the same. -/
theorem stack_apply_eq_ok_iff (e : Elementwise) (axis : Axis)
    (hparts : ∀ part ∈ parts, part.IsValid)
    (hdtype : ∀ part ∈ parts, ∀ part' ∈ parts, part.dtype = part'.dtype) :
    stack axis (parts.map e.apply) = .ok c ↔ ∃ c', stack axis parts = .ok c' ∧ e.apply c' = c := by
  have hparts' : ∀ part ∈ parts.map e.apply, part.IsValid :=
    List.forall_mem_map.2 fun part hpart => e.apply_isValid (hparts part hpart)
  have hstack {c' : NumArray} (h : stack axis parts = .ok c') :
      stack axis (parts.map e.apply) = .ok (e.apply c') := by
    obtain ⟨hc', h⟩ := (stack_eq_ok_iff hparts).1 h
    exact (stack_eq_ok_iff hparts').2 ⟨e.apply_isValid hc', e.isStack_apply hc' hparts h⟩
  constructor
  · intro h
    obtain ⟨hne, hfits⟩ := (exists_stack_iff axis).1 ⟨c, h⟩
    have hfits' : ∀ part ∈ parts, ∀ part' ∈ parts, part.Fits axis part' := by
      refine fun part hpart part' hpart' => ⟨hdtype part hpart part' hpart', fun n => ?_⟩
      have hshape := (hfits _ (List.mem_map_of_mem hpart) _ (List.mem_map_of_mem hpart')).shape n
      rwa [shape_apply, shape_apply] at hshape
    obtain ⟨c', hc'⟩ := (exists_stack_iff axis).2 ⟨fun hnil => hne (by rw [hnil]; rfl), hfits'⟩
    exact ⟨c', hc', Except.ok.inj ((hstack hc').symm.trans h)⟩
  · rintro ⟨c', hc', rfl⟩
    exact hstack hc'

end Elementwise

namespace Structural

open NumArray

variable {a b c : NumArray}

theorem apply_elementwise (S : Structural) (e : Elementwise) (ha : a.IsValid) :
    S.apply (e.apply a) = (S.apply a).map (List.map e.apply) := by
  rw [S.apply_eq (e.apply_isValid ha), S.apply_eq ha, S.plan_congr (e.shape_apply a), map_map]
  cases hplan : S.plan a with
  | error err => rfl
  | ok gs =>
      have hgather : gs.map (e.apply a).gather = gs.map fun g => e.apply (a.gather g) :=
        List.map_congr_left fun g hg => e.gather_apply ha (S.isIn_of_plan ha hplan g hg)
      refine congrArg Except.ok (hgather.trans ?_)
      show _ = (gs.map a.gather).map e.apply
      rw [List.map_map]
      rfl

end Structural

/-! ## Pairs of arrays -/

namespace NumArray

variable {a b c : NumArray} {op : BinaryOp} {g : Gathering}

/-- The elements of two arrays can be combined before or after they are moved. -/
theorem combine_gather (ha : a.IsValid) (hb : b.IsValid) (hab : a.shape = b.shape)
    (hg : g.IsIn a.shape) (h : combine op a b = .ok c) :
    combine op (a.gather g) (b.gather g) = .ok (c.gather g) := by
  obtain ⟨c', hc', hshape', hdtype', -⟩ := exists_combine ha hb hab op
  obtain rfl := Except.ok.inj (hc'.symm.trans h)
  have hga := gather_isValid ha hg
  have hgb := gather_isValid hb (hab ▸ hg)
  obtain ⟨d, hd, hshape, hdtype, -⟩ := exists_combine hga hgb rfl op
  rw [hd]
  refine congrArg Except.ok (ext_of_loadComplex (combine_isValid hga hgb hd)
    (gather_isValid (combine_isValid ha hb h) (hshape' ▸ hg)) (hdtype.trans hdtype'.symm) hshape
    fun k hk => ?_)
  rw [hshape] at hk
  have hk' : k < g.places.size := by rwa [hg.size]
  have hplace := hg.lt _ (Array.getElem_mem hk')
  rw [loadComplex_combine hd (by rwa [hga.size]) (by rwa [hgb.size]), loadComplex_gather _ hk',
    loadComplex_gather _ hk', loadComplex_gather _ hk',
    loadComplex_combine h (by rwa [ha.size]) (by rwa [hb.size, ← hab])]
  rfl

/-- Arrays combined one by one with others. -/
def combineEach (op : BinaryOp) (xs ys : List NumArray) : Except Error (List NumArray) :=
  (xs.zip ys).mapM fun (x, y) => combine op x y

theorem combineEach_gather (ha : a.IsValid) (hb : b.IsValid) (hab : a.shape = b.shape)
    (h : combine op a b = .ok c) {gs : List Gathering} (hgs : ∀ g ∈ gs, g.IsIn a.shape) :
    combineEach op (gs.map a.gather) (gs.map b.gather) = .ok (gs.map c.gather) := by
  rw [combineEach, List.zip_map']
  induction gs with
  | nil => rfl
  | cons g gs ih =>
      obtain ⟨hg, hgs⟩ := List.forall_mem_cons.1 hgs
      rw [List.map_cons, List.mapM_cons, ih hgs]
      simp only [combine_gather ha hb hab hg h]
      rfl

end NumArray

namespace Structural

open NumArray

variable {a b c : NumArray} {op : BinaryOp}

/-- Arrays of one shape can be combined before or after an operation moves their
elements. -/
theorem apply_combine (S : Structural) (ha : a.IsValid) (hb : b.IsValid)
    (hab : a.shape = b.shape) (h : combine op a b = .ok c) :
    S.apply c = (do combineEach op (← S.apply a) (← S.apply b)) := by
  obtain ⟨c', hc', hshape, -, -⟩ := exists_combine ha hb hab op
  obtain rfl := Except.ok.inj (hc'.symm.trans h)
  rw [S.apply_eq (combine_isValid ha hb h), S.apply_eq ha, S.apply_eq hb, S.plan_congr hshape,
    ← S.plan_congr hab]
  cases hplan : S.plan a with
  | error e => rfl
  | ok gs => exact (combineEach_gather ha hb hab h (S.isIn_of_plan ha hplan)).symm

/-- On arrays of one shape an operation gives equally many. -/
theorem length_eq_of_apply (S : Structural) (ha : a.IsValid) (hb : b.IsValid)
    (hab : a.shape = b.shape) {xs ys : List NumArray} (hxs : S.apply a = .ok xs)
    (hys : S.apply b = .ok ys) : xs.length = ys.length := by
  rw [S.apply_eq ha] at hxs
  rw [S.apply_eq hb, ← S.plan_congr hab] at hys
  obtain ⟨gs, hgs, rfl⟩ := map_eq_ok.1 hxs
  obtain ⟨gs', hgs', rfl⟩ := map_eq_ok.1 hys
  obtain rfl := Except.ok.inj (hgs.symm.trans hgs')
  rw [List.length_map, List.length_map]

end Structural

namespace NumArray

variable {a b : NumArray} {parts : List NumArray}

/-- Structural operations interchange with elementwise ones. An operation on one
array, applied to what is made of the array elementwise, gives what is made of
the arrays that it gives, and fails as it does for the array itself. What is made
of arrays of one type can be stacked exactly if they can be, and makes the same
stack. Two arrays of one shape can be combined, and an operation applied to the
result gives the arrays that it gives for the one combined with those that it
gives for the other, of which there are as many; it fails if it does for them. -/
theorem structural_elementwise_interchange (ha : a.IsValid) (hb : b.IsValid)
    (hab : a.shape = b.shape) (hparts : ∀ part ∈ parts, part.IsValid)
    (hdtype : ∀ part ∈ parts, ∀ part' ∈ parts, part.dtype = part'.dtype) :
    (∀ (S : Structural) (e : Elementwise),
      S.apply (e.apply a) = (S.apply a).map (List.map e.apply)) ∧
    (∀ (e : Elementwise) (c : NumArray),
      (hstack (parts.map e.apply) = .ok c ↔ ∃ c', hstack parts = .ok c' ∧ e.apply c' = c) ∧
      (vstack (parts.map e.apply) = .ok c ↔ ∃ c', vstack parts = .ok c' ∧ e.apply c' = c)) ∧
    ∀ op : BinaryOp, ∃ c, combine op a b = .ok c ∧ ∀ S : Structural,
      S.apply c = (do combineEach op (← S.apply a) (← S.apply b)) ∧
      ∀ xs ys, S.apply a = .ok xs → S.apply b = .ok ys → xs.length = ys.length := by
  refine ⟨fun S e => S.apply_elementwise e ha, fun e c => ⟨?_, ?_⟩, fun op => ?_⟩
  · exact e.stack_apply_eq_ok_iff .cols hparts hdtype
  · exact e.stack_apply_eq_ok_iff .rows hparts hdtype
  · obtain ⟨c, hc, -⟩ := exists_combine ha hb hab op
    exact ⟨c, hc, fun S => ⟨S.apply_combine ha hb hab hc, fun xs ys =>
      S.length_eq_of_apply ha hb hab⟩⟩

/-- A divisor for the wide matrix, with zeros of either sign. -/
def wideDivisor : NumArray :=
  ⟨.matrix 2 4, .ofComplex #[⟨3, 0⟩, 0, ⟨-0, 0⟩, ⟨0.1, 0⟩, ⟨7, 0⟩, ⟨-1, 0⟩, ⟨2, 0⟩, 0] .f32⟩

theorem wideDivisor_isValid : wideDivisor.IsValid := isValid_mk_ofComplex (by decide) rfl _

theorem structural_elementwise_interchange_wideMatrix :
    (wideMatrix.IsValid ∧ wideDivisor.IsValid ∧ wideMatrix.shape = wideDivisor.shape ∧
      (∀ part ∈ columnParts, part.IsValid) ∧
      ∀ part ∈ columnParts, ∀ part' ∈ columnParts, part.dtype = part'.dtype) ∧
    (∃ cuts, wideMatrix.hsplit 2 = .ok cuts ∧
      (wideMatrix.astype .i32).hsplit 2 = .ok (cuts.map (·.astype .i32))) ∧
    (∃ c, hstack columnParts = .ok c ∧ hstack (columnParts.map conj) = .ok c.conj) ∧
    ∃ c, combine .div wideMatrix wideDivisor = .ok c ∧
      combineEach .div [wideMatrix.transpose] [wideDivisor.transpose] = .ok [c.transpose] := by
  have hdtype : ∀ part ∈ columnParts, ∀ part' ∈ columnParts, part.dtype = part'.dtype := by
    simp [columnParts, dtype, Storage.ofComplex]
  obtain ⟨hmoved, hstacked, hpairs⟩ := structural_elementwise_interchange wideMatrix_isValid
    wideDivisor_isValid rfl columnParts_isValid hdtype
  refine ⟨⟨wideMatrix_isValid, wideDivisor_isValid, rfl, columnParts_isValid, hdtype⟩, ?_, ?_, ?_⟩
  · obtain ⟨cuts, hcuts⟩ : ∃ cuts, wideMatrix.split .cols 2 = .ok cuts :=
      (exists_split_iff .cols).2 (by decide)
    refine ⟨cuts, hcuts, (hmoved (.split .cols 2) (.astype .i32)).trans ?_⟩
    rw [Structural.apply, hcuts]
    rfl
  · obtain ⟨c, hc⟩ : ∃ c, stack .cols columnParts = .ok c := by
      refine (exists_stack_iff .cols).2 ⟨List.cons_ne_nil _ _, ?_⟩
      simp [columnParts, fits_cols_iff, dtype, ndim, nrows, Shape.ndim, Shape.dims, Shape.rows,
        Storage.ofComplex]
    exact ⟨c, hc, ((hstacked .conj c.conj).1.2 ⟨c, hc, rfl⟩)⟩
  · obtain ⟨c, hc, hmove⟩ := hpairs .div
    exact ⟨c, hc, (hmove .transpose).1.symm⟩

end NumArray

end DenseNumeric
