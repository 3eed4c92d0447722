import DenseNumeric.Proofs.Layout
import DenseNumeric.Proofs.ValidStorage

/-!
# Elements of a run

A run of elements is known by its elements: two valid runs of one type and
size with the same elements are the same. So what an operation does to a run
is said element by element. A store changes one of them, to the element that
its type has for the number; an assignment to distinct places is a store for
each of them, and leaves all others alone. Runs one after another have the
elements of each run behind those of the runs before it. The laws of
assignment, how it goes together with picking and with another assignment,
compare elements in this way.
-/

namespace DenseNumeric

/-- The element that a number is stored as. A real type drops the imaginary
part. -/
def DType.element (d : DType) (z : Complex Float) : Complex Float where
  re := d.quantize z.re
  im := if d.isComplex then d.quantize z.im else 0

theorem DType.im_element_of_real {d : DType} (hd : d.isComplex = false) (z : Complex Float) :
    (d.element z).im = 0 := by
  rw [element, hd]
  rfl

theorem DType.im_element_of_complex {d : DType} (hd : d.isComplex = true) (z : Complex Float) :
    (d.element z).im = d.quantize z.im :=
  if_pos hd

theorem DType.element_zero (d : DType) : d.element 0 = 0 := by
  refine Complex.ext d.quantize_zero ?_
  cases hd : d.isComplex with
  | true => exact (im_element_of_complex hd 0).trans d.quantize_zero
  | false => exact im_element_of_real hd 0

/-- The scalar that a store in a run of type `d` leads to. -/
def Scalar.cast (d : DType) (x : Scalar) : Scalar :=
  if d.isComplex then .complex (d.element x.toComplex) else .real (d.element x.toComplex).re

/-- Places in a run of `n` elements, no two of them the same. -/
structure AreDistinct (places : Array Nat) (n : Nat) : Prop where
  nodup : places.toList.Nodup
  lt : ∀ p ∈ places, p < n

namespace Storage

variable {s t : Storage}

/-! ## Single elements -/

theorem loadComplex_im_of_real (h : s.IsValid) (hd : s.dtype.isComplex = false) (i : Nat) :
    (s.loadComplex i).im = 0 := by
  have hnone : s.im = none := by
    have := h.isSome_im
    rw [hd] at this
    simpa using this
  rw [loadComplex, hnone]
  rfl

theorem exists_im_of_complex (h : s.IsValid) (hd : s.dtype.isComplex = true) :
    ∃ plane, s.im = some plane ∧ plane.size = s.re.size := by
  have hsome := h.isSome_im
  rw [hd] at hsome
  obtain ⟨plane, hplane⟩ := Option.isSome_iff_exists.1 hsome
  exact ⟨plane, hplane, h.size_im plane hplane⟩

/-- The elements of a run are values of its type. -/
theorem element_loadComplex (h : s.IsValid) (i : Nat) :
    s.dtype.element (s.loadComplex i) = s.loadComplex i := by
  refine Complex.ext (h.re.getD i) ?_
  show (if s.dtype.isComplex then s.dtype.quantize (s.loadComplex i).im else 0) = _
  cases hd : s.dtype.isComplex with
  | false => exact (loadComplex_im_of_real h hd i).symm
  | true =>
      obtain ⟨plane, hplane, -⟩ := exists_im_of_complex h hd
      rw [if_pos rfl, loadComplex, hplane]
      exact (h.im plane hplane).getD i

theorem toComplex_load (h : s.IsValid) (i : Nat) : (s.load i).toComplex = s.loadComplex i := by
  rw [load, h.isSome_im]
  cases hd : s.dtype.isComplex with
  | false =>
      rw [if_neg Bool.false_ne_true]
      exact Complex.ext rfl (loadComplex_im_of_real h hd i).symm
  | true => rw [if_pos rfl, Scalar.toComplex]

theorem load_eq (h : s.IsValid) (i : Nat) :
    s.load i
      = if s.dtype.isComplex then .complex (s.loadComplex i) else .real (s.loadComplex i).re := by
  rw [load, h.isSome_im]

theorem ext_of_getD {x y : Array Float} (hsize : x.size = y.size)
    (h : ∀ i < x.size, x.getD i 0 = y.getD i 0) : x = y := by
  refine Array.ext hsize fun i hx hy => ?_
  simpa [Array.getD, hx, hy] using h i hx

/-- A valid run is determined by its type, its size and its elements. -/
theorem ext_of_loadComplex (hs : s.IsValid) (ht : t.IsValid) (hdtype : s.dtype = t.dtype)
    (hsize : s.size = t.size) (h : ∀ i < s.size, s.loadComplex i = t.loadComplex i) : s = t := by
  have hre : s.re = t.re := ext_of_getD hsize fun i hi => congrArg Complex.re (h i hi)
  have him : s.im = t.im := by
    cases hd : s.dtype.isComplex with
    | false =>
        have hsnone := hs.isSome_im
        have htnone := ht.isSome_im
        rw [← hdtype, hd] at htnone
        rw [hd] at hsnone
        rw [Option.isSome_eq_false_iff, Option.isNone_iff_eq_none] at hsnone htnone
        rw [hsnone, htnone]
    | true =>
        obtain ⟨x, hx, hxsize⟩ := exists_im_of_complex hs hd
        obtain ⟨y, hy, hysize⟩ := exists_im_of_complex ht (hdtype ▸ hd)
        have hxy : x = y := by
          refine ext_of_getD (by rw [hxsize, hysize]; exact hsize) fun i hi => ?_
          have him := congrArg Complex.im (h i (Nat.lt_of_lt_of_eq hi hxsize))
          simpa only [loadComplex, hx, hy, Option.map_some, Option.getD_some] using him
        rw [hx, hy, hxy]
  obtain ⟨dtype, re, im⟩ := s
  obtain ⟨dtype', re', im'⟩ := t
  cases hdtype
  cases hre
  cases him
  rfl

/-! ## Stores -/

theorem getD_setIfInBounds_self {plane : Array Float} {i : Nat} (hi : i < plane.size) (x : Float) :
    (plane.setIfInBounds i x).getD i 0 = x := by
  simp [Array.getD, hi]

theorem getD_setIfInBounds_of_ne {plane : Array Float} {i j : Nat} (h : j ≠ i) (x : Float) :
    (plane.setIfInBounds i x).getD j 0 = plane.getD j 0 := by
  simp [Array.getD_eq_getD_getElem?, h.symm]

/-- What is stored is what the type has for it. -/
theorem loadComplex_storeComplex_self (h : s.IsValid) {i : Nat} (hi : i < s.size)
    (z : Complex Float) : (s.storeComplex i z).loadComplex i = s.dtype.element z := by
  refine Complex.ext (getD_setIfInBounds_self hi _) ?_
  cases hd : s.dtype.isComplex with
  | false =>
      rw [loadComplex_im_of_real (storeComplex_isValid h i z) hd]
      simp [DType.element, hd]
  | true =>
      obtain ⟨plane, hplane, hsize⟩ := exists_im_of_complex h hd
      have hi' : i < plane.size := hsize ▸ hi
      simp only [loadComplex, storeComplex, hplane, Option.map_some, Option.getD_some,
        DType.element, hd, if_pos]
      exact getD_setIfInBounds_self hi' _

theorem loadComplex_storeComplex_of_ne {i j : Nat} (h : j ≠ i) (z : Complex Float) :
    (s.storeComplex i z).loadComplex j = s.loadComplex j := by
  refine Complex.ext (getD_setIfInBounds_of_ne h _) ?_
  simp only [loadComplex, storeComplex]
  cases s.im with
  | none => rfl
  | some plane => exact getD_setIfInBounds_of_ne h _

/-! ## Assignments -/

theorem assign_eq_foldl (s : Storage) (places : Array Nat) (value : Nat → Scalar) :
    s.assign places value
      = places.toList.zipIdx.foldl (fun acc (place, k) => acc.store place (value k)) s :=
  rfl

/-- An assignment of one number needs no count of the places. -/
theorem assign_const (s : Storage) (places : Array Nat) (x : Scalar) :
    s.assign places (fun _ => x) = places.toList.foldl (fun acc place => acc.store place x) s := by
  rw [assign_eq_foldl]
  conv_rhs => rw [← List.zipIdx_map_fst 0 places.toList, List.foldl_map]

/-- What is not at one of the places stays. -/
theorem loadComplex_foldl_store_of_not_mem (pairs : List (Nat × Nat)) (value : Nat → Scalar)
    {i : Nat} (h : ∀ p ∈ pairs, p.1 ≠ i) :
    (pairs.foldl (fun acc (place, k) => acc.store place (value k)) s).loadComplex i
      = s.loadComplex i := by
  induction pairs generalizing s with
  | nil => rfl
  | cons p pairs ih =>
      rw [List.foldl_cons, ih fun q hq => h q (List.mem_cons_of_mem p hq)]
      exact loadComplex_storeComplex_of_ne (h p List.mem_cons_self).symm _

/-- The store at a place is the last one there, if no later place is the same. -/
theorem loadComplex_foldl_store (h : s.IsValid) {pairs : List (Nat × Nat)} (value : Nat → Scalar)
    (hnodup : (pairs.map Prod.fst).Nodup) {i k : Nat} (hmem : (i, k) ∈ pairs) (hi : i < s.size) :
    (pairs.foldl (fun acc (place, k) => acc.store place (value k)) s).loadComplex i
      = s.dtype.element (value k).toComplex := by
  induction pairs generalizing s with
  | nil => cases hmem
  | cons p pairs ih =>
      rw [List.map_cons, List.nodup_cons] at hnodup
      rw [List.foldl_cons]
      rcases List.mem_cons.1 hmem with rfl | hmem
      · rw [loadComplex_foldl_store_of_not_mem]
        · exact loadComplex_storeComplex_self h hi _
        · rintro q hq rfl
          exact hnodup.1 (List.mem_map.2 ⟨q, hq, rfl⟩)
      · exact ih (storeComplex_isValid h _ _) hnodup.2 hmem
          (Nat.lt_of_lt_of_eq hi (size_storeComplex _ _ _).symm)

theorem loadComplex_assign_of_not_mem (s : Storage) {places : Array Nat} (value : Nat → Scalar)
    {i : Nat} (h : i ∉ places) : (s.assign places value).loadComplex i = s.loadComplex i := by
  refine loadComplex_foldl_store_of_not_mem _ value fun p hp heq => h ?_
  have hget := List.mem_of_getElem? (List.mem_zipIdx_iff_getElem?.1 hp)
  rw [← heq]
  exact Array.mem_toList_iff.1 hget

/-- Distinct places take their values. -/
theorem loadComplex_assign (h : s.IsValid) (value : Nat → Scalar) {places : Array Nat}
    (hp : AreDistinct places s.size) {k : Nat} (hk : k < places.size) :
    (s.assign places value).loadComplex places[k] = s.dtype.element (value k).toComplex := by
  refine loadComplex_foldl_store h value ?_ ?_ (hp.lt _ (Array.getElem_mem hk))
  · rw [List.zipIdx_map_fst]
    exact hp.nodup
  · exact List.mem_zipIdx_iff_getElem?.2 (by simp [hk])

/-! ## Runs from runs -/

theorem loadComplex_pick (s : Storage) {places : Array Nat} {k : Nat} (hk : k < places.size) :
    (s.pick places).loadComplex k = s.loadComplex places[k] := by
  simp only [loadComplex, pick]
  cases s.im <;> simp [Array.getD, hk]

theorem load_pick (s : Storage) {places : Array Nat} {k : Nat} (hk : k < places.size) :
    (s.pick places).load k = s.load places[k] := by
  have hsome : (s.pick places).im.isSome = s.im.isSome := Option.isSome_map
  rw [load, load, hsome, loadComplex_pick s hk]

/-- The elements of a region, row by row. -/
theorem load_pick_places (s : Storage) {r : Region} (shape : Shape) {i j : Nat}
    (hi : i < r.rows.count) (hj : j < r.cols.count) :
    (s.pick (r.places shape)).load (i * r.cols.count + j)
      = s.load (shape.offset (r.rows.position i) (r.cols.position j)) := by
  have hk : i * r.cols.count + j < (r.places shape).size :=
    Shape.offset_lt_size_tabulate (s := .matrix r.rows.count r.cols.count) hi hj _
  rw [load_pick s hk]
  exact congrArg s.load (Shape.getElem_tabulate (s := .matrix r.rows.count r.cols.count) hi hj _ hk)

theorem loadComplex_zeros (n : Nat) (dtype : DType) (i : Nat) :
    (zeros n dtype).loadComplex i = 0 := by
  have hplane : (Array.replicate n (0 : Float)).getD i 0 = 0 := by
    by_cases hi : i < n <;> simp [Array.getD, hi]
  refine Complex.ext hplane ?_
  cases hd : dtype.isComplex with
  | true => simp only [loadComplex, zeros, imaginary, hd, if_true, Option.map_some,
      Option.getD_some, hplane, Complex.im_zero]
  | false => simp [loadComplex, zeros, imaginary, hd]

theorem loadComplex_filled (n : Nat) (dtype : DType) (value : Scalar) {i : Nat} (hi : i < n) :
    (filled n dtype value).loadComplex i = dtype.element value.toComplex := by
  simp only [loadComplex, filled, imaginary, DType.element]
  cases dtype.isComplex <;> simp [Array.getD, hi]

theorem loadComplex_ofComplex {values : Array (Complex Float)} {dtype : DType} {i : Nat}
    (hi : i < values.size) : (ofComplex values dtype).loadComplex i = dtype.element values[i] := by
  simp only [loadComplex, ofComplex, imaginary, DType.element]
  cases dtype.isComplex <;> simp [Array.getD, hi]

theorem pick_ofComplex {values : Array (Complex Float)} {places : Array Nat}
    (h : ∀ i ∈ places, i < values.size) (dtype : DType) :
    (ofComplex values dtype).pick places
      = ofComplex (places.map fun i => values.getD i default) dtype := by
  have part (f : Complex Float → Float) :
      places.map (fun i => (values.map f).getD i 0)
        = (places.map fun i => values.getD i default).map f := by
    rw [Array.map_map]
    refine Array.map_congr_left fun i hi => ?_
    simp [Array.getD, h i hi]
  simp only [pick, ofComplex, part, imaginary]
  split
  · rw [Option.map_some, part]
  · rfl

theorem loadComplex_cast (h : s.IsValid) (dtype : DType) {i : Nat} (hi : i < s.size) :
    (s.cast dtype).loadComplex i = dtype.element (s.loadComplex i) := by
  unfold cast
  split
  · next hd =>
      rw [hd]
      exact (element_loadComplex h i).symm
  · refine Complex.ext ?_ ?_
    · show (s.re.map dtype.quantize).getD i 0 = dtype.quantize (s.re.getD i 0)
      have hi' : i < s.re.size := hi
      simp [Array.getD, hi']
    · cases hd : dtype.isComplex with
      | false => simp [loadComplex, imaginary, DType.element, hd]
      | true =>
          simp only [loadComplex, imaginary, DType.element, hd, if_true, Option.map_some,
            Option.getD_some]
          cases hplane : s.im with
          | none => simp [Array.getD, hi]
          | some plane =>
              have hi' : i < plane.size := Nat.lt_of_lt_of_eq hi (h.size_im plane hplane).symm
              simp [Array.getD, hi']

/-! ## Runs one after another -/

/-- A list of lists is read at the start of one of them and a place in it. -/
theorem getD_flatMap {α β : Type} (f : α → List β) (x : β) {xs : List α} {n k : Nat}
    (hn : n < xs.length) (hk : k < (f xs[n]).length) :
    (xs.flatMap f).getD (((xs.take n).map fun y => (f y).length).sum + k) x
      = (f xs[n]).getD k x := by
  induction xs generalizing n with
  | nil => cases hn
  | cons y ys ih =>
      rw [List.flatMap_cons]
      cases n with
      | zero =>
          rw [List.take_zero, List.map_nil, List.sum_nil, Nat.zero_add]
          exact List.getD_append _ _ _ _ hk
      | succ n =>
          rw [List.take_succ_cons, List.map_cons, List.sum_cons, Nat.add_assoc,
            List.getD_append_right _ _ _ _ (Nat.le_add_right _ _), Nat.add_sub_cancel_left]
          exact ih (Nat.lt_of_succ_lt_succ hn) hk

section Concat

variable {α : Type} {xs : List α} {f : α → Storage} {n k : Nat}

/-- A plane of a run of runs is read at the start of a run and a place in it. -/
theorem getD_flatMap_toList (plane : Storage → Array Float)
    (hsize : ∀ x ∈ xs, (plane (f x)).size = (f x).size) (hn : n < xs.length)
    (hk : k < (f xs[n]).size) :
    (xs.flatMap fun x => (plane (f x)).toList).toArray.getD
        (((xs.take n).map fun x => (f x).size).sum + k) 0
      = (plane (f xs[n])).getD k 0 := by
  have hstart : (xs.take n).map (fun x => (f x).size)
      = (xs.take n).map fun x => (plane (f x)).toList.length :=
    List.map_congr_left fun x hx => (hsize x (List.mem_of_mem_take hx)).symm
  have hk' : k < (plane (f xs[n])).toList.length :=
    Nat.lt_of_lt_of_eq hk (hsize _ (List.getElem_mem hn)).symm
  have hread := getD_flatMap (fun x => (plane (f x)).toList) 0 hn hk'
  rw [← hstart, List.getD_eq_getElem?_getD, List.getD_eq_getElem?_getD] at hread
  rwa [Array.getD_eq_getD_getElem?, Array.getD_eq_getD_getElem?, List.getElem?_toArray,
    ← Array.getElem?_toList]

/-- An element of a run of runs is an element of one of them. -/
theorem loadComplex_concat_map {dtype : DType}
    (h : ∀ x ∈ xs, (f x).IsValid ∧ (f x).dtype = dtype) (hn : n < xs.length)
    (hk : k < (f xs[n]).size) :
    (concat dtype (xs.map f)).loadComplex (((xs.take n).map fun x => (f x).size).sum + k)
      = (f xs[n]).loadComplex k := by
  obtain ⟨hvalid, hdtype⟩ := h _ (List.getElem_mem hn)
  have hconcat : (concat dtype (xs.map f)).IsValid := concat_isValid (List.forall_mem_map.2 h)
  refine Complex.ext ?_ ?_
  · have hread := getD_flatMap_toList re (fun _ _ => rfl) hn hk
    simpa only [loadComplex, concat, List.flatMap_map] using hread
  · cases hd : dtype.isComplex with
    | false =>
        rw [loadComplex_im_of_real hconcat hd, loadComplex_im_of_real hvalid (hdtype ▸ hd)]
    | true =>
        have hsize : ∀ x ∈ xs, ((f x).im.getD #[]).size = (f x).size := by
          intro x hx
          obtain ⟨hx, hxd⟩ := h x hx
          exact size_getD_im hx (hxd ▸ hd)
        obtain ⟨plane, hplane, -⟩ := exists_im_of_complex hvalid (hdtype ▸ hd)
        have hread := getD_flatMap_toList (fun s => s.im.getD #[]) hsize hn hk
        simp only [hplane, Option.getD_some] at hread
        simpa only [loadComplex, concat, imaginary, hd, if_true, hplane, Option.map_some,
          Option.getD_some, List.flatMap_map] using hread

end Concat

/-- Runs of runs can be joined first. -/
theorem concat_flatMap {α : Type} (dtype : DType) (xs : List α) (f : α → List Storage) :
    concat dtype (xs.flatMap f) = concat dtype (xs.map fun x => concat dtype (f x)) := by
  simp only [concat, List.flatMap_assoc, List.flatMap_map]
  congr 1
  simp only [imaginary]
  split
  · rfl
  · rfl

/-! ## Laws of assignment -/

section Laws

variable {places : Array Nat} {value : Nat → Scalar}

theorem load_assign (h : s.IsValid) (hp : AreDistinct places s.size) {k : Nat}
    (hk : k < places.size) :
    (s.assign places value).load places[k] = (value k).cast s.dtype := by
  rw [load_eq (assign_isValid h _ _), dtype_assign, loadComplex_assign h value hp hk]
  rfl

theorem load_assign_of_not_mem (h : s.IsValid) (value : Nat → Scalar) {i : Nat}
    (hi : i ∉ places) : (s.assign places value).load i = s.load i := by
  rw [load_eq (assign_isValid h _ _), load_eq h, dtype_assign,
    loadComplex_assign_of_not_mem s value hi]

/-- An assignment is known by what is then in the run. -/
theorem assign_eq (h : s.IsValid) (ht : t.IsValid) (hdtype : t.dtype = s.dtype)
    (hsize : t.size = s.size) (hp : AreDistinct places s.size)
    (hmem : ∀ k (hk : k < places.size),
      t.loadComplex places[k] = s.dtype.element (value k).toComplex)
    (hnot : ∀ i, i ∉ places → t.loadComplex i = s.loadComplex i) : s.assign places value = t := by
  refine ext_of_loadComplex (assign_isValid h _ _) ht ((dtype_assign _ _ _).trans hdtype.symm)
    ((size_assign _ _ _).trans hsize.symm) fun i _ => ?_
  by_cases hi : i ∈ places
  · obtain ⟨k, hk, rfl⟩ := Array.mem_iff_getElem.1 hi
    rw [loadComplex_assign h value hp hk, hmem k hk]
  · rw [loadComplex_assign_of_not_mem s value hi, hnot i hi]

/-- Of two assignments to the same places the second one stays. -/
theorem assign_assign (h : s.IsValid) (hp : AreDistinct places s.size)
    (value value' : Nat → Scalar) :
    (s.assign places value).assign places value' = s.assign places value' := by
  have hs := assign_isValid h places value
  have hp' : AreDistinct places (s.assign places value).size := by
    rw [size_assign]
    exact hp
  have hdtype : ((s.assign places value).assign places value').dtype = s.dtype := by
    rw [dtype_assign, dtype_assign]
  have hsize : ((s.assign places value).assign places value').size = s.size := by
    rw [size_assign, size_assign]
  refine (assign_eq h (assign_isValid hs places value') hdtype hsize hp (fun k hk => ?_)
    fun i hi => ?_).symm
  · rw [loadComplex_assign hs value' hp' hk, dtype_assign]
  · rw [loadComplex_assign_of_not_mem _ value' hi, loadComplex_assign_of_not_mem s value hi]

/-- What was picked from some places is already there. -/
theorem assign_pick (h : s.IsValid) (hp : AreDistinct places s.size)
    (hvalue : ∀ k < places.size, value k = (s.pick places).load k) : s.assign places value = s := by
  refine assign_eq h h rfl rfl hp (fun k hk => ?_) fun i _ => rfl
  rw [hvalue k hk, load_pick s hk, toComplex_load h, element_loadComplex h]

/-- The run that is picked from the places of an assignment. -/
theorem pick_assign (h : s.IsValid) (ht : t.IsValid) (hdtype : t.dtype = s.dtype)
    (hsize : t.size = places.size) (hp : AreDistinct places s.size)
    (hmem : ∀ k < places.size, t.loadComplex k = s.dtype.element (value k).toComplex) :
    (s.assign places value).pick places = t := by
  refine ext_of_loadComplex (pick_isValid (assign_isValid h _ _) _) ht
    ((dtype_assign _ _ _).trans hdtype.symm) ((size_pick _ _).trans hsize.symm) fun k hk => ?_
  rw [size_pick] at hk
  rw [loadComplex_pick _ hk, loadComplex_assign h value hp hk, hmem k hk]

theorem pick_assign_load (h : s.IsValid) (ht : t.IsValid) (hsize : t.size = places.size)
    (hp : AreDistinct places s.size) :
    (s.assign places t.load).pick places = t.cast s.dtype := by
  refine pick_assign h (cast_isValid ht _) (dtype_cast t _) ((size_cast _ _).trans hsize) hp
    fun k hk => ?_
  rw [loadComplex_cast ht _ (Nat.lt_of_lt_of_eq hk hsize.symm), toComplex_load ht]

theorem pick_assign_const (h : s.IsValid) (hp : AreDistinct places s.size) (x : Scalar) :
    (s.assign places fun _ => x).pick places = filled places.size s.dtype x :=
  pick_assign h (filled_isValid _ _ _) rfl (size_filled _ _ _) hp fun _ hk =>
    loadComplex_filled _ _ _ hk

end Laws

end Storage

end DenseNumeric
