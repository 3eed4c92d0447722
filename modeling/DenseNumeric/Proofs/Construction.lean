import DenseNumeric.Proofs.Assignment
import DenseNumeric.Proofs.CheckedDecompositions
import DenseNumeric.Proofs.Conversions

/-!
# Ways to build an array

The same elements come into an array in several ways: as rows, as one run that
is converted afterwards, as two planes, or one by one, each written to its place
in an array of zeros. A run of complex numbers is also made from a buffer in
which real and imaginary parts follow each other in turn, every second of which
is a plane.

None of the ways rounds more than once to the type of the array, so they all
lead to the same array. For the single writes the argument is an induction over
them: what has not been written yet does not matter, as it still will be
(`NumArray.writeAll_eq`).
-/

namespace DenseNumeric

/-! ## Parts in turn -/

section Interleaved

variable {α : Type}

/-- The first of a list, the third, and so on. -/
def everySecond : List α → List α
  | [] => []
  | [x] => [x]
  | x :: _ :: xs => x :: everySecond xs

theorem everySecond_cons (x : α) (xs : List α) :
    everySecond (x :: xs) = x :: everySecond xs.tail := by
  cases xs <;> rfl

/-- The parts of complex numbers, the imaginary part behind the real one. -/
def interleave (values : List (Complex α)) : List α :=
  values.flatMap fun z => [z.re, z.im]

theorem interleave_cons (z : Complex α) (values : List (Complex α)) :
    interleave (z :: values) = z.re :: z.im :: interleave values :=
  rfl

theorem everySecond_interleave (values : List (Complex α)) :
    everySecond (interleave values) = values.map Complex.re := by
  induction values with
  | nil => rfl
  | cons z values ih => rw [interleave_cons, everySecond, ih, List.map_cons]

theorem everySecond_tail_interleave (values : List (Complex α)) :
    everySecond (interleave values).tail = values.map Complex.im := by
  induction values with
  | nil => rfl
  | cons z values ih => rw [interleave_cons, List.tail_cons, everySecond_cons, ih, List.map_cons]

end Interleaved

/-! ## Runs of elements -/

namespace Storage

/-- A run with the parts that a buffer holds in turn. -/
def ofInterleaved (flat : List Float) (dtype : DType) : Storage where
  dtype := dtype
  re := ((everySecond flat).map dtype.quantize).toArray
  im := imaginary dtype ((everySecond flat.tail).map dtype.quantize).toArray

theorem ofInterleaved_interleave (values : Array (Complex Float)) (dtype : DType) :
    ofInterleaved (interleave values.toList) dtype = ofComplex values dtype := by
  have part (f : Complex Float → Float) :
      ((values.toList.map f).map dtype.quantize).toArray
        = values.map fun z => dtype.quantize (f z) := by
    rw [List.map_map, ← Array.toList_map]
    rfl
  rw [ofInterleaved, everySecond_interleave, everySecond_tail_interleave, part, part, ofComplex]

theorem ofPlanes_parts {α : Type} [Element α] (data : Array α) (dtype : DType) :
    ofPlanes dtype (data.map fun x => (Element.toParts x).re)
        (some (data.map fun x => (Element.toParts x).im))
      = .ok (ofElementsAs data dtype) := by
  simp [ofPlanes, ofElementsAs, ofComplex, Function.comp_def]

/-- Elements are not rounded in a run of their own type, so that a conversion
comes to the same as storing them in the other type at once. -/
theorem cast_ofElements {t : DType} (data : Array t.Value) (dtype : DType) :
    (ofElements data).cast dtype = ofElementsAs data dtype := by
  have hvalid : (ofElements data).IsValid := ofComplex_isValid _ _
  have hsize : (ofElements data).size = (ofElementsAs data dtype).size := by
    simp only [ofElements, ofElementsAs, size_ofComplex]
  refine ext_of_loadComplex (cast_isValid hvalid dtype) (ofComplex_isValid _ _)
    (dtype_cast _ _) ((size_cast _ _).trans hsize) fun i hi => ?_
  rw [size_cast] at hi
  have hi' : i < (data.map Element.toParts).size := by
    rwa [ofElements, ofElementsAs, size_ofComplex] at hi
  rw [loadComplex_cast hvalid dtype hi, ofElements, ofElementsAs, ofElementsAs,
    loadComplex_ofComplex hi', loadComplex_ofComplex hi', Array.getElem_map, DType.dtype_value,
    DType.element_toParts]

end Storage

theorem Scalar.toComplex_ofElement {t : DType} (x : t.Value) :
    (Scalar.ofElement x).toComplex = Element.toParts x := by
  cases t <;> rfl

/-! ## Elements written one by one -/

section Rows

variable {α : Type} {rows : List (List α)} {n i j : Nat} {x : α}

/-- The elements of rows, each with the row and the column it is in. -/
def placed (rows : List (List α)) : List (Nat × Nat × α) :=
  rows.zipIdx.flatMap fun (row, i) => row.zipIdx.map fun (x, j) => (i, j, x)

theorem mem_placed_iff :
    (i, j, x) ∈ placed rows ↔ ∃ row, rows[i]? = some row ∧ row[j]? = some x := by
  simp only [placed, List.mem_flatMap, List.mem_map, Prod.exists, Prod.mk.injEq,
    List.mem_zipIdx_iff_getElem?]
  constructor
  · rintro ⟨row, i, hrow, x, j, hx, rfl, rfl, rfl⟩
    exact ⟨row, hrow, hx⟩
  · rintro ⟨row, hrow, hx⟩
    exact ⟨row, i, hrow, x, j, hx, rfl, rfl, rfl⟩

/-- Where an element is when rows of one length are put one after another. -/
theorem getElem?_flatten (hrows : ∀ row ∈ rows, row.length = n) (h : (i, j, x) ∈ placed rows) :
    rows.flatten[i * n + j]? = some x := by
  obtain ⟨row, hrow, hx⟩ := mem_placed_iff.1 h
  clear h
  induction rows generalizing i with
  | nil => cases hrow
  | cons first rest ih =>
      have hfirst : first.length = n := hrows first List.mem_cons_self
      rw [List.flatten_cons]
      cases i with
      | zero =>
          obtain rfl := Option.some.inj hrow
          rw [Nat.zero_mul, Nat.zero_add,
            List.getElem?_append_left (List.getElem?_eq_some_iff.1 hx).1]
          exact hx
      | succ i =>
          rw [List.getElem?_append_right (by rw [hfirst, Nat.succ_mul]; omega), hfirst,
            show (i + 1) * n + j - n = i * n + j by rw [Nat.succ_mul]; omega]
          exact ih (fun row hmem => hrows row (List.mem_cons_of_mem first hmem)) hrow

end Rows

namespace NumArray

variable {a b c : NumArray} {m n i j : Nat}

/-- Elements written to their places, one after another. -/
def writeAll {α : Type} [Element α] (a : NumArray) (writes : List (Nat × Nat × α)) :
    Except Error NumArray :=
  writes.foldlM (fun a (i, j, x) => a.setItem [i, j] (.ofElement x)) a

/-- A single write to a matrix changes one element. -/
theorem exists_setItem (ha : a.IsValid) (hs : a.shape = .matrix m n) (hi : i < m) (hj : j < n)
    (x : Scalar) :
    ∃ b, a.setItem [i, j] x = .ok b ∧ b.IsValid ∧ b.shape = a.shape ∧ b.dtype = a.dtype ∧
      b.entry i j = a.dtype.element x.toComplex ∧
      ∀ i' j', j' < n → ¬(i' = i ∧ j' = j) → b.entry i' j' = a.entry i' j' := by
  have hposition {p length : Nat} (hp : p < length) :
      (AxisKey.position p).resolve length = .ok (.single p) :=
    AxisKey.resolve_position_eq_ok_iff.2 ⟨p, if_neg (by omega), hp, rfl⟩
  have hr : a.resolve [.position i, .position j] = .ok ⟨.single i, .single j⟩ :=
    (resolve_matrix_eq_ok_iff hs).2 ⟨_, _, _, _, rfl, hposition hi, hposition hj, rfl⟩
  have hset : a.setItem [i, j] x = .ok (a.assigned ⟨.single i, .single j⟩ fun _ => x) :=
    bind_eq_ok.2 ⟨_, hr, rfl⟩
  have hentry := entry_assigned_const ha hr x Nat.one_pos Nat.one_pos
  refine ⟨_, hset, setScalar_isValid ha hset, rfl, Storage.dtype_assign _ _ _, ?_, ?_⟩
  · simpa [AxisRun.single, AxisRun.position] using hentry
  · intro i' j' hj' hne
    refine entry_assigned_of_not hr _ (by rwa [ncols, hs]) ?_
    rintro ⟨⟨k, hk, hrow⟩, l, hl, hcol⟩
    obtain rfl : k = 0 := Nat.lt_one_iff.1 hk
    obtain rfl : l = 0 := Nat.lt_one_iff.1 hl
    simp only [AxisRun.single, AxisRun.position, Nat.zero_mul, Nat.add_zero] at hrow hcol
    exact hne ⟨hrow.symm, hcol.symm⟩

/-- Writes that bring the elements of `c` to their places make `c`, if there is a
write for each element in which the array differs. -/
theorem writeAll_eq {t : DType} (hc : c.IsValid) (hcs : c.shape = .matrix m n)
    {writes : List (Nat × Nat × t.Value)}
    (hwrites : ∀ i j x, (i, j, x) ∈ writes →
      i < m ∧ j < n ∧ c.entry i j = c.dtype.element (Element.toParts x))
    (ha : a.IsValid) (has : a.shape = .matrix m n) (hdtype : a.dtype = c.dtype)
    (hrest : ∀ i < m, ∀ j < n, (∀ x, (i, j, x) ∉ writes) → a.entry i j = c.entry i j) :
    a.writeAll writes = .ok c := by
  induction writes generalizing a with
  | nil =>
      refine congrArg Except.ok (ext_of_entry ha hc hdtype (has.trans hcs.symm) fun i hi j hj => ?_)
      rw [nrows, has] at hi
      rw [ncols, has] at hj
      exact hrest i hi j hj fun _ => List.not_mem_nil
  | cons write writes ih =>
      obtain ⟨i, j, x⟩ := write
      obtain ⟨hi, hj, hx⟩ := hwrites i j x List.mem_cons_self
      obtain ⟨b, hb, hvalid, hshape, hbd, hself, hother⟩ :=
        exists_setItem ha has hi hj (Scalar.ofElement x)
      rw [writeAll, List.foldlM_cons]
      simp only [hb]
      refine ih (fun i j x hmem => hwrites i j x (List.mem_cons_of_mem _ hmem)) hvalid
        (hshape.trans has) (hbd.trans hdtype) fun i' hi' j' hj' hnot => ?_
      by_cases hplace : i' = i ∧ j' = j
      · obtain ⟨rfl, rfl⟩ := hplace
        rw [hself, hdtype, hx, Scalar.toComplex_ofElement]
      · rw [hother i' j' hj' hplace]
        refine hrest i' hi' j' hj' fun y hy => ?_
        rcases List.mem_cons.1 hy with heq | hy
        · cases heq
          exact hplace ⟨rfl, rfl⟩
        · exact hnot y hy

/-! ## Rows -/

/-- Rows make a matrix exactly if there are some, all of one length that is not
zero. -/
theorem ofRows_eq_ok_iff {α : Type} [Element α] {rows : List (List α)} {dtype : DType} :
    ofRows rows dtype = .ok a ↔ rows ≠ [] ∧ ∃ n, 0 < n ∧ (∀ row ∈ rows, row.length = n) ∧
      ⟨.matrix rows.length n, .ofElementsAs rows.flatten.toArray dtype⟩ = a := by
  cases rows with
  | nil => exact iff_of_false nofun fun h => h.1 rfl
  | cons first rest =>
      constructor
      · intro h
        obtain ⟨s, hs, h⟩ := bind_eq_ok.1 h
        obtain ⟨hpos, hdims⟩ := Shape.ofDims_eq_ok hs
        split at h
        · cases h
        · next hrows =>
            obtain rfl := pure_eq_ok.1 h
            obtain rfl := Shape.eq_matrix_of_dims hdims
            refine ⟨List.cons_ne_nil _ _, first.length, hpos.2, fun row hrow => ?_, rfl⟩
            have hnot := List.find?_eq_none.1 hrows row hrow
            rw [decide_eq_true_iff, not_not] at hnot
            exact hnot
      · rintro ⟨-, n, hn, hrows, rfl⟩
        obtain rfl : first.length = n := hrows first List.mem_cons_self
        have hnone : (first :: rest).find? (·.length ≠ first.length) = none := by simpa using hrows
        refine bind_eq_ok.2 ⟨_, Shape.ofDims_dims (s := .matrix _ first.length)
          ⟨Nat.succ_pos rest.length, hn⟩, ?_⟩
        rw [List.head?_cons, Option.map_some, Option.getD_some, hnone]
        rfl

section Agreement

variable {t : DType} {rows : List (List t.Value)} (d : DType)
  (hrows : ∀ row ∈ rows, row.length = n) (hm : 0 < rows.length) (hn : 0 < n)
include hrows

theorem size_flatten : rows.flatten.toArray.size = (Shape.matrix rows.length n).numel := by
  rw [List.size_toArray, List.length_flatten, List.map_congr_left hrows, List.map_const',
    List.sum_replicate]
  rfl

/-- An element of the rows is stored where it stands. -/
theorem entry_of_mem_placed {x : t.Value} (h : (i, j, x) ∈ placed rows) :
    i < rows.length ∧ j < n ∧
      entry ⟨.matrix rows.length n, .ofElementsAs rows.flatten.toArray d⟩ i j
        = d.element (Element.toParts x) := by
  obtain ⟨row, hrow, hx⟩ := mem_placed_iff.1 h
  obtain ⟨hi, rfl⟩ := List.getElem?_eq_some_iff.1 hrow
  obtain ⟨hj, -⟩ := List.getElem?_eq_some_iff.1 hx
  obtain ⟨hk, hget⟩ := List.getElem?_eq_some_iff.1 (getElem?_flatten hrows h)
  refine ⟨hi, hrows _ (List.getElem_mem hi) ▸ hj, ?_⟩
  refine (Storage.loadComplex_ofComplex (by rwa [Array.size_map, List.size_toArray])).trans ?_
  rw [Array.getElem_map, List.getElem_toArray]
  exact congrArg (fun y => d.element (Element.toParts y)) hget

include hm hn

/-- Every element written to its place in an array of zeros, in any order. -/
theorem writeAll_zeros_eq {writes : List (Nat × Nat × t.Value)} (h : writes.Perm (placed rows)) :
    (do writeAll (← zeros [rows.length, n] d) writes)
      = .ok ⟨.matrix rows.length n, .ofElementsAs rows.flatten.toArray d⟩ := by
  have hpos : (Shape.matrix rows.length n).IsPositive := ⟨hm, hn⟩
  have hzeros : zeros [rows.length, n] d = .ok ⟨.matrix rows.length n, .zeros _ d⟩ :=
    bind_eq_ok.2 ⟨_, Shape.ofDims_dims hpos, rfl⟩
  rw [hzeros]
  refine writeAll_eq (isValid_mk_ofComplex hpos ?_ d) rfl (fun i j x hmem => ?_)
    (zeros_isValid hzeros) rfl rfl fun i hi j hj hnot => ?_
  · rw [Array.size_map, size_flatten hrows]
  · exact entry_of_mem_placed d hrows (h.mem_iff.1 hmem)
  · have hj' : j < rows[i].length := Nat.lt_of_lt_of_eq hj (hrows _ (List.getElem_mem hi)).symm
    refine absurd (h.mem_iff.2 (mem_placed_iff.2 ⟨rows[i], ?_, ?_⟩)) (hnot rows[i][j])
    · exact List.getElem?_eq_getElem hi
    · exact List.getElem?_eq_getElem hj'

end Agreement

/-- Elements of any type, built into an array or a run of any type. They make the
same run if they are stored one by one in a run of zeros, which goes through.
Rows make an array exactly if there are some and all have one length, not zero.
It is then the array of the rows put one after another, converted; of the planes
of their parts; and of zeros after each element is written to its place, in any
order. Complex numbers make the same run as elements and from a buffer of their
parts. -/
theorem constructions_agree (t d : DType) :
    (∀ data : Array t.Value,
      Checked.storeAll (data.map Element.toParts) d = .ok (.ofElementsAs data d)) ∧
    (∀ rows : List (List t.Value),
      ((∃ a, ofRows rows d = .ok a) ↔ rows ≠ [] ∧ ∃ n, 0 < n ∧ ∀ row ∈ rows, row.length = n) ∧
      ∀ a, ofRows rows d = .ok a → ∃ n, (∀ row ∈ rows, row.length = n) ∧
        (ofElements rows.flatten.toArray [rows.length, n]).map (·.astype d) = .ok a ∧
        ofPlanes [rows.length, n] d (rows.flatten.toArray.map fun x => (Element.toParts x).re)
          (some (rows.flatten.toArray.map fun x => (Element.toParts x).im)) = .ok a ∧
        ∀ writes, writes.Perm (placed rows) →
          (do writeAll (← zeros [rows.length, n] d) writes) = .ok a) ∧
    ∀ values : Array (Complex Float),
      Storage.ofComplex values d = .ofElementsAs values d ∧
      Storage.ofInterleaved (interleave values.toList) d = .ofComplex values d := by
  refine ⟨fun data => Checked.storeAll_eq _ d, fun rows => ⟨?_, fun a ha => ?_⟩, fun values => ?_⟩
  · simp only [ofRows_eq_ok_iff]
    constructor
    · rintro ⟨-, hne, n, hn, hrows, -⟩
      exact ⟨hne, n, hn, hrows⟩
    · rintro ⟨hne, n, hn, hrows⟩
      exact ⟨_, hne, n, hn, hrows, rfl⟩
  · obtain ⟨hne, n, hn, hrows, rfl⟩ := ofRows_eq_ok_iff.1 ha
    have hm := List.length_pos_iff.2 hne
    have hshape : Shape.ofDims [rows.length, n] = .ok (.matrix rows.length n) :=
      Shape.ofDims_dims (s := .matrix rows.length n) ⟨hm, hn⟩
    have hsize := size_flatten hrows
    refine ⟨n, hrows, ?_, ?_, fun writes h => writeAll_zeros_eq d hrows hm hn h⟩
    · refine map_eq_ok.2 ⟨_, bind_eq_ok.2 ⟨_, hshape, check_eq_ok.2 ⟨not_not.2 hsize, rfl⟩⟩, ?_⟩
      exact congrArg (NumArray.mk _) (Storage.cast_ofElements _ d)
    · refine bind_eq_ok.2 ⟨_, hshape, check_eq_ok.2 ⟨not_not.2 (Array.size_map.trans hsize), ?_⟩⟩
      rw [Storage.ofPlanes_parts]
      rfl
  · refine ⟨?_, Storage.ofInterleaved_interleave values d⟩
    exact congrArg (Storage.ofComplex · d) (Array.map_id values).symm

/-- Two rows of reals, among them one that is out of range and one that is
undefined. -/
def realRows : List (List Float) := [[2.5, -3], [1 / 0, 0 / 0]]

def raggedRows : List (List Float) := [[2.5], []]

theorem constructions_agree_realRows :
    (¬∃ a, ofRows raggedRows .i32 = .ok a) ∧
    ∃ a, ofRows realRows .i32 = .ok a ∧
      (ofElements realRows.flatten.toArray [2, 2]).map (·.astype .i32) = .ok a ∧
      (do writeAll (← zeros [2, 2] .i32) (placed realRows).reverse) = .ok a := by
  obtain ⟨-, hrows, -⟩ := constructions_agree .f64 .i32
  refine ⟨fun h => ?_, ?_⟩
  · obtain ⟨-, n, hn, hlength⟩ := (hrows raggedRows).1.1 h
    exact Nat.ne_of_lt hn (hlength [] (List.mem_cons_of_mem _ List.mem_cons_self))
  · obtain ⟨hok, hways⟩ := hrows realRows
    have hlengths : ∀ row ∈ realRows, row.length = 2 := by decide +kernel
    obtain ⟨a, ha⟩ := hok.2 ⟨List.cons_ne_nil _ _, 2, by decide, hlengths⟩
    obtain ⟨n, hn, helements, -, hwrites⟩ := hways a ha
    obtain rfl : 2 = n := hn _ List.mem_cons_self
    exact ⟨a, ha, helements, hwrites _ (List.reverse_perm _)⟩

end NumArray

end DenseNumeric
