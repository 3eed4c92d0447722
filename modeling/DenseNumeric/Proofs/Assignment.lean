import DenseNumeric.Proofs.SelectedElements

/-!
# Assignment by a key

Writing by a key and reading by it are inverse to each other, up to the
rounding that a store brings with it: what was written is read back as a value
of the array's type, writing back what was read changes nothing, and of two
writes the later one stays. All of this rests on one fact about the places of
a region, that no two of them are the same. Elements that the key does not
select are not touched.

An array is changed in place, by one store after the other. All checks come
before the first store, so an assignment that fails leaves the array as it was.
-/

namespace DenseNumeric

/-! ## Values -/

namespace Selection

/-- A scalar, or a valid array. -/
def IsValid : Selection → Prop
  | .scalar _ => True
  | .array b => b.IsValid

/-- The number that goes to the `k`-th place. -/
def elementAt : Selection → Nat → Scalar
  | .scalar x, _ => x
  | .array b, k => b.storage.load k

/-- A scalar can be written over any selection, and an array over one of its
own extents. -/
def Fits : Selection → Selection → Prop
  | .scalar _, _ => True
  | .array b, .array c => b.dims = c.dims
  | .array _, .scalar _ => False

/-- What is read after `value` was written over `selected`: the array in the
type of the elements, or the scalar in each of the places. -/
def stored (d : DType) (selected value : Selection) : Selection :=
  match selected, value with
  | _, .array b => .array (b.astype d)
  | .scalar _, .scalar x => .scalar (x.cast d)
  | .array c, .scalar x => .array ⟨c.shape, .filled c.shape.numel d x⟩

end Selection

/-! ## Selected places -/

/-- One place on every axis, each of them selected by its key. -/
def IsSelected : List AxisKey → List Nat → List Int → Prop
  | [], [], [] => True
  | entry :: key, n :: dims, p :: places =>
    (∃ k, entry.Selects n k p) ∧ IsSelected key dims places
  | _, _, _ => False

namespace NumArray

/-! ## Assignment in place -/

def storeAt (place : Nat) (x : Scalar) : EStateM Error NumArray Unit :=
  modify fun a => { a with storage := a.storage.store place x }

/-- The assignment as it changes an array, store by store. -/
def setInPlace (key : List AxisKey) (value : Selection) : EStateM Error NumArray Unit := do
  let a ← getThe NumArray
  let r ← MonadExcept.ofExcept (a.resolve key)
  match value with
  | .scalar x => (r.places a.shape).toList.forM (storeAt · x)
  | .array b =>
    let dims := (r.shape?.map Shape.dims).getD []
    if b.dims ≠ dims then throw (.shapeMismatch dims b.dims)
    (r.places a.shape).toList.zipIdx.forM fun (place, k) => storeAt place (b.storage.load k)

variable {a b : NumArray} {key : List AxisKey} {value : Selection} {r : Region}

theorem run_forM_storeAt {α : Type} (xs : List α) (place : α → Nat) (value : α → Scalar)
    (a : NumArray) :
    (xs.forM fun x => storeAt (place x) (value x)).run a
      = .ok () { a with
        storage := xs.foldl (fun s x => s.store (place x) (value x)) a.storage } := by
  induction xs generalizing a with
  | nil => rfl
  | cons x xs ih => exact ih { a with storage := a.storage.store (place x) (value x) }

/-- The first step: the key is resolved, and nothing has changed. -/
theorem run_setInPlace_eq (a : NumArray) (key : List AxisKey) (value : Selection) :
    (setInPlace key value).run a = match a.resolve key with
      | .error e => .error e a
      | .ok r => match value with
        | .scalar x => ((r.places a.shape).toList.forM (storeAt · x)).run a
        | .array b =>
          if b.dims ≠ (r.shape?.map Shape.dims).getD [] then
            .error (.shapeMismatch ((r.shape?.map Shape.dims).getD []) b.dims) a
          else
            ((r.places a.shape).toList.zipIdx.forM fun (place, k) =>
              storeAt place (b.storage.load k)).run a := by
  show (do
    let r ← MonadExcept.ofExcept (a.resolve key)
    _ : EStateM Error NumArray Unit).run a = _
  cases a.resolve key with
  | error e => rfl
  | ok r =>
      cases value with
      | scalar x => rfl
      | array b =>
          show EStateM.run (if b.dims ≠ (r.shape?.map Shape.dims).getD [] then _ else _) a = _
          by_cases hdims : b.dims ≠ (r.shape?.map Shape.dims).getD []
          · rw [if_pos hdims]
            exact (if_pos hdims).symm
          · rw [if_neg hdims]
            exact (if_neg hdims).symm

/-- In place the array ends as the one that is made, or stays. -/
theorem run_setInPlace (a : NumArray) (key : List AxisKey) (value : Selection) :
    (setInPlace key value).run a = match a.set key value with
      | .ok b => .ok () b
      | .error e => .error e a := by
  rw [run_setInPlace_eq]
  cases value with
  | scalar x =>
      simp only [set, setScalar]
      cases a.resolve key with
      | error e => rfl
      | ok r =>
          simp only [run_forM_storeAt, ← Storage.assign_const]
          rfl
  | array b =>
      simp only [set, setArray]
      cases a.resolve key with
      | error e => rfl
      | ok r =>
          simp only [run_forM_storeAt, ← Storage.assign_eq_foldl]
          show _ = (match (if b.dims ≠ (r.shape?.map Shape.dims).getD [] then _ else _ :
            Except Error NumArray) with | .ok b => _ | .error e => _)
          by_cases hdims : b.dims ≠ (r.shape?.map Shape.dims).getD []
          · rw [if_pos hdims, if_pos hdims]
            rfl
          · rw [if_neg hdims, if_neg hdims]
            rfl

/-! ## The places of a key -/

/-- The array after an assignment to the places of a region. -/
def assigned (a : NumArray) (r : Region) (value : Nat → Scalar) : NumArray :=
  { a with storage := a.storage.assign (r.places a.shape) value }

theorem areDistinct_of_resolve (ha : a.IsValid) (h : a.resolve key = .ok r) :
    AreDistinct (r.places a.shape) a.storage.size where
  nodup := Region.nodup_places (isIn_of_resolve h)
  lt p hp := by
    rw [ha.size]
    exact Region.lt_numel_of_mem_places (isIn_of_resolve h) hp

/-- The place of an element is one of the region only if its row and its column
are in the runs. -/
theorem exists_of_offset_mem_places (hr : r.IsIn a.shape) {i j : Nat} (hj : j < a.shape.cols)
    (hmem : a.shape.offset i j ∈ r.places a.shape) :
    (∃ k < r.rows.count, r.rows.position k = i) ∧ ∃ k < r.cols.count, r.cols.position k = j := by
  obtain ⟨x, hx, y, hy, heq⟩ := Region.mem_places_iff.1 hmem
  obtain ⟨hrow, hcol⟩ := Shape.offset_inj (hr.cols.position_lt y hy) hj heq
  exact ⟨⟨x, hx, hrow⟩, y, hy, hcol⟩

/-- One number is then in all rows and columns of the region. -/
theorem entry_assigned_const (ha : a.IsValid) (h : a.resolve key = .ok r) (x : Scalar) {k l : Nat}
    (hk : k < r.rows.count) (hl : l < r.cols.count) :
    (a.assigned r fun _ => x).entry (r.rows.position k) (r.cols.position l)
      = a.dtype.element x.toComplex := by
  obtain ⟨p, hp, hplace⟩ := Array.mem_iff_getElem.1
    (Region.mem_places_iff (s := a.shape).2 ⟨k, hk, l, hl, rfl⟩)
  have hload := Storage.loadComplex_assign ha.storage (fun _ => x) (areDistinct_of_resolve ha h) hp
  rw [hplace] at hload
  exact hload

theorem entry_assigned_of_not (h : a.resolve key = .ok r) (value : Nat → Scalar) {i j : Nat}
    (hj : j < a.ncols) (hnot : ¬((∃ k < r.rows.count, r.rows.position k = i)
      ∧ ∃ k < r.cols.count, r.cols.position k = j)) :
    (a.assigned r value).entry i j = a.entry i j :=
  Storage.loadComplex_assign_of_not_mem a.storage value fun hmem =>
    hnot (exists_of_offset_mem_places (isIn_of_resolve h) hj hmem)

/-- An element that the key does not select stays. -/
theorem at?_assigned (ha : a.IsValid) (h : a.resolve key = .ok r) (value : Nat → Scalar)
    {places : List Int} (hnot : ¬IsSelected key a.dims places) :
    (a.assigned r value).at? places = a.at? places := by
  have hr := isIn_of_resolve h
  have hload {i j : Nat} (hj : j < a.shape.cols)
      (hruns : ¬((∃ k < r.rows.count, r.rows.position k = i)
        ∧ ∃ k < r.cols.count, r.cols.position k = j)) :
      (a.assigned r value).storage.load (a.shape.offset i j)
        = a.storage.load (a.shape.offset i j) :=
    Storage.load_assign_of_not_mem ha.storage value fun hmem =>
      hruns (exists_of_offset_mem_places hr hj hmem)
  rw [dims] at hnot
  have hshape : (a.assigned r value).shape = a.shape := rfl
  unfold at?
  rw [hshape]
  split
  · next n j hs =>
      obtain ⟨col, run, rfl, hcol, rfl⟩ := (resolve_vector_eq_ok_iff hs).1 h
      refine ite_congr rfl (fun hj => ?_) fun _ => rfl
      obtain ⟨j, rfl⟩ := Int.eq_ofNat_of_zero_le hj.1
      have hplace : a.shape.offset 0 j = j := by rw [Shape.offset, Nat.zero_mul, Nat.zero_add]
      rw [hs] at hnot
      rw [Int.toNat_natCast, ← hplace, hload (by rw [hs, Shape.cols]; omega)]
      rintro ⟨-, k, hk, rfl⟩
      exact hnot ⟨⟨k, (AxisKey.selects_iff_of_resolve hcol).2 ⟨hk, rfl⟩⟩, trivial⟩
  · next m n i j hs =>
      obtain ⟨row, col, rows, cols, rfl, hrow, hcol, rfl⟩ := (resolve_matrix_eq_ok_iff hs).1 h
      refine ite_congr rfl (fun hij => ?_) fun _ => rfl
      obtain ⟨i, rfl⟩ := Int.eq_ofNat_of_zero_le hij.1.1
      obtain ⟨j, rfl⟩ := Int.eq_ofNat_of_zero_le hij.2.1
      have hplace : a.shape.offset i j = i * n + j := by rw [hs]; rfl
      rw [hs] at hnot
      rw [Int.toNat_natCast, Int.toNat_natCast, ← hplace, hload (by rw [hs, Shape.cols]; omega)]
      rintro ⟨⟨k, hk, rfl⟩, k', hk', rfl⟩
      exact hnot ⟨⟨k, (AxisKey.selects_iff_of_resolve hrow).2 ⟨hk, rfl⟩⟩,
        ⟨k', (AxisKey.selects_iff_of_resolve hcol).2 ⟨hk', rfl⟩⟩, trivial⟩
  · rfl

/-! ## When it succeeds -/

theorem fits_select_iff :
    value.Fits (a.select r)
      ↔ ∀ c, value = .array c → c.dims = (r.shape?.map Shape.dims).getD [] := by
  unfold select
  cases value with
  | scalar x =>
      refine iff_of_true ?_ nofun
      split <;> trivial
  | array c =>
      simp only [Selection.array.injEq, forall_eq']
      cases r.shape? with
      | none =>
          refine iff_of_false id fun h => ?_
          have hlength := c.shape.length_dims
          rw [show c.shape.dims = [] from h] at hlength
          simp at hlength
      | some t => exact Iff.rfl

theorem get_eq_ok_iff {sel : Selection} :
    a.get key = .ok sel ↔ ∃ r, a.resolve key = .ok r ∧ a.select r = sel := by
  simp only [get, bind_eq_ok, pure_eq_ok]

theorem set_eq_ok_iff :
    a.set key value = .ok b
      ↔ ∃ r, a.resolve key = .ok r ∧ value.Fits (a.select r)
        ∧ a.assigned r value.elementAt = b := by
  simp only [fits_select_iff]
  cases value with
  | scalar x =>
      simp only [set, setScalar, bind_eq_ok, pure_eq_ok]
      refine exists_congr fun r => and_congr_right fun _ => ?_
      exact ⟨fun h => ⟨nofun, h⟩, fun h => h.2⟩
  | array c =>
      simp only [set, setArray, bind_eq_ok, check_eq_ok, pure_eq_ok]
      refine exists_congr fun r => and_congr_right fun _ => and_congr_left fun _ => ?_
      simp

theorem exists_set_ok_iff :
    (∃ b, a.set key value = .ok b) ↔ ∃ sel, a.get key = .ok sel ∧ value.Fits sel := by
  simp only [set_eq_ok_iff, get_eq_ok_iff]
  constructor
  · rintro ⟨b, r, hr, hfits, -⟩
    exact ⟨_, ⟨r, hr, rfl⟩, hfits⟩
  · rintro ⟨sel, ⟨r, hr, rfl⟩, hfits⟩
    exact ⟨_, r, hr, hfits, rfl⟩

/-- An assignment fails if reading does, or if the value does not fit. -/
theorem exists_set_error_iff :
    (∃ e, a.set key value = .error e)
      ↔ (∃ e, a.get key = .error e) ∨ ∃ sel, a.get key = .ok sel ∧ ¬value.Fits sel := by
  rw [← not_exists_ok_iff, exists_set_ok_iff]
  cases a.get key with
  | error e => simp
  | ok sel => simp

/-! ## Laws -/

/-- What was written is read back in the type of the array. -/
theorem select_assigned (ha : a.IsValid) (h : a.resolve key = .ok r) (hvalue : value.IsValid)
    (hfits : value.Fits (a.select r)) :
    (a.assigned r value.elementAt).select r = (a.select r).stored a.dtype value := by
  have hr := isIn_of_resolve h
  have hp := areDistinct_of_resolve ha h
  unfold select at hfits ⊢
  split at hfits
  · next hnone =>
      have hsize := Region.size_places_of_shape?_eq_none (s := a.shape) hr hnone
      cases value with
      | array c => cases hfits
      | scalar x =>
          have hpos : 0 < (r.places a.shape).size := Nat.lt_of_lt_of_eq Nat.one_pos hsize.symm
          refine congrArg Selection.scalar ((Storage.load_pick _ hpos).trans ?_)
          exact Storage.load_assign ha.storage hp hpos
  · next t ht =>
      obtain ⟨-, hnumel⟩ := Region.shape?_eq_some hr ht
      have hsize : t.numel = (r.places a.shape).size := by rw [Region.size_places, hnumel]
      cases value with
      | scalar x =>
          refine congrArg (fun s => Selection.array ⟨t, s⟩) ?_
          rw [hsize]
          exact Storage.pick_assign_const ha.storage hp x
      | array c =>
          obtain rfl : c.shape = t := Shape.dims_inj hfits
          refine congrArg (fun s => Selection.array ⟨c.shape, s⟩) ?_
          exact Storage.pick_assign_load ha.storage hvalue.storage (hvalue.size.trans hsize) hp

/-- Of two assignments by one key the later one stays. -/
theorem assigned_assigned (ha : a.IsValid) (h : a.resolve key = .ok r) (x y : Nat → Scalar) :
    (a.assigned r x).assigned r y = a.assigned r y :=
  congrArg (NumArray.mk a.shape)
    (Storage.assign_assign ha.storage (areDistinct_of_resolve ha h) x y)

theorem set_assigned (ha : a.IsValid) (h : a.resolve key = .ok r) (x : Nat → Scalar)
    (value : Selection) : (a.assigned r x).set key value = a.set key value := by
  have h' : (a.assigned r x).resolve key = .ok r := h
  cases value with
  | scalar y =>
      simp only [set, setScalar, h, h']
      exact congrArg Except.ok (assigned_assigned ha h x _)
  | array c =>
      simp only [set, setArray, h, h']
      show (do
        if c.dims ≠ (r.shape?.map Shape.dims).getD [] then throw _
        return (a.assigned r x).assigned r c.storage.load) = _
      rw [assigned_assigned ha h]
      rfl

/-- Writing back what was read changes nothing. -/
theorem set_select (ha : a.IsValid) {sel : Selection} (h : a.get key = .ok sel) :
    a.set key sel = .ok a := by
  obtain ⟨r, hr, rfl⟩ := get_eq_ok_iff.1 h
  have hp := areDistinct_of_resolve ha hr
  refine set_eq_ok_iff.2 ⟨r, hr, ?_, congrArg (NumArray.mk a.shape) ?_⟩
  · unfold select
    split
    · trivial
    · exact rfl
  · refine Storage.assign_pick ha.storage hp fun k hk => ?_
    unfold select
    split
    · next hnone =>
        rw [Region.size_places_of_shape?_eq_none (isIn_of_resolve hr) hnone] at hk
        obtain rfl : k = 0 := Nat.lt_one_iff.1 hk
        rfl
    · rfl

/-- Assignment by a key to a valid array. In place it ends with the array that
`set` makes or, if it fails, with the array as it was. It fails if reading by
the key does, or if the value is an array of other extents than what is read,
so always if all entries are positions. Otherwise shape and type stay; the same
key reads what was written, in the type of the array; elements that the key
does not select stay; and a later assignment by the same key leaves no trace of
this one. Writing what was read leaves the array as it is. -/
theorem set_lens (ha : a.IsValid) (hvalue : value.IsValid) (key : List AxisKey) :
    (setInPlace key value).run a = (match a.set key value with
      | .ok b => .ok () b
      | .error e => .error e a)
    ∧ ((∃ e, a.set key value = .error e)
      ↔ (∃ e, a.get key = .error e) ∨ ∃ sel, a.get key = .ok sel ∧ ¬value.Fits sel)
    ∧ (∀ c, value = .array c → (∀ entry ∈ key, entry.isPosition = true) →
      ∃ e, a.set key value = .error e)
    ∧ (∀ b, a.set key value = .ok b →
      (b.shape = a.shape ∧ b.dtype = a.dtype)
      ∧ (∃ sel, a.get key = .ok sel ∧ b.get key = .ok (sel.stored a.dtype value))
      ∧ (∀ places, ¬IsSelected key a.dims places → b.at? places = a.at? places)
      ∧ ∀ later, b.set key later = a.set key later)
    ∧ ∀ sel, a.get key = .ok sel → a.set key sel = .ok a := by
  refine ⟨run_setInPlace a key value, exists_set_error_iff, ?_, ?_, fun sel => set_select ha⟩
  · rintro c rfl hkey
    rw [exists_set_error_iff]
    cases hget : a.get key with
    | error e => exact .inl ⟨e, rfl⟩
    | ok sel =>
        obtain ⟨r, hr, rfl⟩ := get_eq_ok_iff.1 hget
        refine .inr ⟨_, rfl, ?_⟩
        rw [select, (shape?_eq_none_iff hr).2 hkey]
        exact id
  · intro b hb
    obtain ⟨r, hr, hfits, rfl⟩ := set_eq_ok_iff.1 hb
    refine ⟨⟨rfl, Storage.dtype_assign _ _ _⟩, ⟨a.select r, get_eq_ok_iff.2 ⟨r, hr, rfl⟩, ?_⟩,
      fun places => at?_assigned ha hr _, fun later => set_assigned ha hr _ later⟩
    exact get_eq_ok_iff.2 ⟨r, hr, select_assigned ha hr hvalue hfits⟩

/-- A vector of reals, to be stored as integers. -/
def sampleValue : NumArray := ⟨.vector 1, ⟨.f64, #[2.5], none⟩⟩

theorem set_lens_sampleMatrix :
    sampleMatrix.IsValid ∧ (Selection.array sampleValue).IsValid
      ∧ ∃ b, (setInPlace sampleKey (.array sampleValue)).run sampleMatrix = .ok () b
        ∧ b.get sampleKey = .ok (.array ⟨.vector 1, ⟨.i32, #[2], none⟩⟩)
        ∧ b.at? [1, 2] = some (.real 7) := by
  have hmade : ofPlanes [2, 4] .i32 #[1, 2, 3, 4, 5, 6, 7, 8] none = .ok sampleMatrix := by
    decide +kernel
  have hvalue : ofPlanes [1] .f64 #[2.5] none = .ok sampleValue := by decide +kernel
  have hb : sampleMatrix.set sampleKey (.array sampleValue)
      = .ok ⟨.matrix 2 4, ⟨.i32, #[1, 2, 3, 4, 5, 2, 7, 8], none⟩⟩ := by decide +kernel
  have hget : sampleMatrix.get sampleKey = .ok (.array ⟨.vector 1, ⟨.i32, #[6], none⟩⟩) := by
    decide +kernel
  have hcast : sampleValue.astype .i32 = ⟨.vector 1, ⟨.i32, #[2], none⟩⟩ := by decide +kernel
  have hnot : ¬IsSelected sampleKey sampleMatrix.dims [1, 2] := by
    rintro ⟨-, ⟨k, h, -⟩, -⟩
    change (2 : Int) = 1 + k * (2 ^ 64 - 1 : Nat) at h
    omega
  have ha := ofPlanes_isValid hmade
  have hv : (Selection.array sampleValue).IsValid := ofPlanes_isValid hvalue
  obtain ⟨hrun, -, -, hset, -⟩ := set_lens ha hv sampleKey
  obtain ⟨-, ⟨sel, hsel, hread⟩, hframe, -⟩ := hset _ hb
  rw [hget] at hsel
  cases hsel
  rw [hb] at hrun
  refine ⟨ha, hv, _, hrun, ?_, (hframe _ hnot).trans (by decide +kernel)⟩
  rw [hread]
  exact congrArg (fun c => Except.ok (Selection.array c)) hcast

end NumArray

end DenseNumeric
