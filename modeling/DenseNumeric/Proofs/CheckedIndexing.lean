import DenseNumeric.Proofs.KeyResolution
import DenseNumeric.Proofs.StorageAccess
import DenseNumeric.Proofs.ValidArray

/-!
# Indexing in machine words

The same operations as an evaluation in words of 64 bits, step by step in the
order in which they are carried out: lengths and indices are signed where an
index may be negative, all other numbers are unsigned, and every place is
checked against the plane it is looked up in. Such an evaluation can go wrong
in ways that the operations themselves do not know of: a result that does not
fit, a place behind the end of a plane, a case that was taken to be impossible.

On valid arrays whose extents are signed words nothing of this happens. The
evaluation gives what the operation gives, and refuses what it refuses.
-/

namespace DenseNumeric

/-- Why an evaluation in words stops. -/
inductive Fault where
  /-- A result that is no word, or a division by zero. -/
  | arithmetic
  /-- A place outside a plane. -/
  | access
  /-- A case that is taken to be impossible. -/
  | unreachable
  /-- The arguments are refused. -/
  | refused (e : Error)
deriving DecidableEq, Repr

/-- The indices of a key are signed words, and its steps unsigned ones. -/
def AxisKey.IsWord : AxisKey → Prop
  | .position index => -2 ^ 63 ≤ index ∧ index < 2 ^ 63
  | .slice s =>
    (-2 ^ 63 ≤ s.start ∧ s.start < 2 ^ 63) ∧ (∀ stop ∈ s.stop, -2 ^ 63 ≤ stop ∧ stop < 2 ^ 63)
      ∧ s.step < 2 ^ 64

/-- The extents are signed words, and the planes are not longer than a word can
say. -/
structure NumArray.IsWordSized (a : NumArray) : Prop where
  extent_lt : ∀ d ∈ a.dims, d < 2 ^ 63
  size_lt : a.storage.size < 2 ^ 64

abbrev Checked (α : Type) := Except Fault α

namespace Checked

/-! ## Words -/

def unsigned (n : Nat) : Checked Nat :=
  if n < 2 ^ 64 then return n else throw .arithmetic

def signed (i : Int) : Checked Int :=
  if -2 ^ 63 ≤ i ∧ i < 2 ^ 63 then return i else throw .arithmetic

def add (m n : Nat) : Checked Nat := unsigned (m + n)

def mul (m n : Nat) : Checked Nat := unsigned (m * n)

def sub (m n : Nat) : Checked Nat :=
  if n ≤ m then return m - n else throw .arithmetic

/-- The quotient, rounded up. -/
def divCeil (m n : Nat) : Checked Nat :=
  if n = 0 then throw .arithmetic
  else if m % n = 0 then return m / n
  else add (m / n) 1

/-! ## Keys -/

def normalize (index : Int) (length : Nat) : Checked (Option Nat) := do
  let i ← if index < 0 then do signed ((← signed length) + index) else pure index
  return if 0 ≤ i then some i.toNat else none

def resolveIndex (index : Int) (length : Nat) (onAxis : Nat → Bool) : Checked Nat := do
  match (← normalize index length).filter onAxis with
  | some i => return i
  | none => throw (.refused (.indexOutOfBounds index length))

def resolveKey (key : AxisKey) (length : Nat) : Checked AxisRun :=
  match key with
  | .position index => return .single (← resolveIndex index length (· < length))
  | .slice ⟨start, stop, step⟩ => do
    if step = 0 then throw (.refused (.invalidArgument .zeroStep))
    let first ← resolveIndex start length (· ≤ length)
    let last ← match stop with
      | none => pure length
      | some stop => resolveIndex stop length (· ≤ length)
    let count ← if first < last then do divCeil (← sub last first) step else pure 0
    if count = 0 then throw (.refused (.invalidArgument (.emptySlice start last)))
    return ⟨first, step, count, false⟩

def resolve (a : NumArray) (key : List AxisKey) : Checked Region := do
  if key.length ≠ a.ndim then
    throw (.refused (.invalidArgument (.keyLength a.ndim key.length)))
  match key with
  | [col] => return ⟨.single 0, ← resolveKey col a.ncols⟩
  | [row, col] => return ⟨← resolveKey row a.nrows, ← resolveKey col a.ncols⟩
  | _ => throw .unreachable

/-! ## Places -/

def position (r : AxisRun) (k : Nat) : Checked Nat := do add r.first (← mul k r.step)

def offset (cols row col : Nat) : Checked Nat := do add (← mul row cols) col

/-- The place of one element of a region. -/
def place (r : Region) (cols i j : Nat) : Checked Nat := do
  offset cols (← position r.rows i) (← position r.cols j)

/-- The places of a region, row by row. -/
def places (r : Region) (cols : Nat) : Checked (List Nat) :=
  ((List.range r.rows.count).flatMap fun i => (List.range r.cols.count).map (i, ·)).mapM
    fun (i, j) => place r cols i j

/-! ## Planes -/

def read (plane : Array Float) (i : Nat) : Checked Float :=
  if i < plane.size then return plane.getD i 0 else throw .access

def write (plane : Array Float) (i : Nat) (x : Float) : Checked (Array Float) :=
  if i < plane.size then return plane.setIfInBounds i x else throw .access

def load (s : Storage) (i : Nat) : Checked Scalar :=
  match s.im with
  | none => return .real (← read s.re i)
  | some plane => return .complex ⟨← read s.re i, ← read plane i⟩

def store (s : Storage) (i : Nat) (x : Scalar) : Checked Storage := do
  let re ← write s.re i (s.dtype.quantize x.toComplex.re)
  match s.im with
  | none => return { s with re := re }
  | some plane =>
    let im ← write plane i (s.dtype.quantize x.toComplex.im)
    return { s with re := re, im := some im }

/-! ## Reading and writing -/

/-- The extents of the axes that are left. -/
def outDims (r : Region) : List Nat :=
  ([r.rows, r.cols].filter fun run => !run.collapsed).map AxisRun.count

def get (a : NumArray) (key : List AxisKey) : Checked Selection := do
  let r ← resolve a key
  if (outDims r).isEmpty then
    return .scalar (← load a.storage (← offset a.ncols r.rows.first r.cols.first))
  let size ← (outDims r).foldlM mul 1
  let out ← (← places r a.ncols).zipIdx.foldlM
    (fun out (src, dst) => do store out dst (← load a.storage src)) (.zeros size a.dtype)
  match Shape.ofDims (outDims r) with
  | .ok shape => if shape.numel = out.size then return .array ⟨shape, out⟩ else throw .unreachable
  | .error _ => throw .unreachable

def item (a : NumArray) (index : List Int) : Checked Scalar := do
  match ← get a (index.map .position) with
  | .scalar x => return x
  | .array _ => throw .unreachable

def line (a : NumArray) (axis : Axis) (index : Int) : Checked NumArray := do
  if ¬a.shape.isMatrix then throw (.refused (.invalidArgument (.lineOfVector axis a.dims)))
  match ← get a (match axis with
    | .rows => [.position index, .all]
    | .cols => [.all, .position index]) with
  | .array b => return b
  | .scalar _ => throw .unreachable

def setScalar (a : NumArray) (key : List AxisKey) (value : Scalar) : Checked NumArray := do
  let r ← resolve a key
  let out ← (← places r a.ncols).foldlM (fun out dst => store out dst value) a.storage
  return { a with storage := out }

/-! ## Results of operations -/

/-- The result of an operation, as the result of an evaluation. -/
def lift {α : Type} (x : Except Error α) : Checked α := x.mapError .refused

section lift

variable {α β : Type}

theorem ok_bind (a : α) (f : α → Checked β) : (.ok a >>= f : Checked β) = f a := rfl

/-- Step by step: the next step is compared for the results that there are. -/
theorem lift_bind {x : Except Error α} {f : α → Checked β} {g : α → Except Error β}
    (h : ∀ a, x = .ok a → f a = lift (g a)) : lift x >>= f = lift (x >>= g) := by
  cases x with
  | error e => rfl
  | ok a => exact h a rfl

theorem lift_check {c : Prop} [Decidable c] {e : Error} {x : Checked α} {y : Except Error α}
    (h : ¬c → x = lift y) :
    (do if c then throw (.refused e)
        x) = lift (do if c then throw e
                      y) := by
  by_cases hc : c
  · simp only [hc, if_true]
    rfl
  · simp only [hc, if_false]
    exact h hc

/-- A loop none of whose steps goes wrong. -/
theorem foldlM_eq_ok {P : β → Prop} {f : β → α → Checked β} {g : β → α → β} {xs : List α}
    (h : ∀ b, P b → ∀ x ∈ xs, f b x = .ok (g b x) ∧ P (g b x)) {b : β} (hb : P b) :
    xs.foldlM f b = .ok (xs.foldl g b) := by
  induction xs generalizing b with
  | nil => rfl
  | cons x xs ih =>
      obtain ⟨hf, hg⟩ := h b hb x List.mem_cons_self
      rw [List.foldlM_cons, hf, List.foldl_cons]
      exact ih (fun b hb y hy => h b hb y (List.mem_cons_of_mem x hy)) hg

theorem mapM_eq_ok {f : α → Checked β} {g : α → β} {xs : List α}
    (h : ∀ x ∈ xs, f x = .ok (g x)) : xs.mapM f = .ok (xs.map g) := by
  induction xs with
  | nil => rfl
  | cons x xs ih =>
      rw [List.mapM_cons, h x List.mem_cons_self,
        ih fun y hy => h y (List.mem_cons_of_mem x hy)]
      rfl

/-- All pairs of a row and a column, row by row. -/
theorem mapM_pairs_eq_ok {m n : Nat} {f : Nat × Nat → Checked β} {g : Nat → Nat → β}
    (h : ∀ i j, i < m → j < n → f (i, j) = .ok (g i j)) :
    ((List.range m).flatMap fun i => (List.range n).map (i, ·)).mapM f
      = .ok ((List.range m).flatMap fun i => (List.range n).map (g i)) := by
  refine (mapM_eq_ok (g := fun p => g p.1 p.2) fun p hp => ?_).trans ?_
  · obtain ⟨i, hi, hp⟩ := List.mem_flatMap.1 hp
    obtain ⟨j, hj, rfl⟩ := List.mem_map.1 hp
    exact h i j (List.mem_range.1 hi) (List.mem_range.1 hj)
  · simp only [List.map_flatMap, List.map_map, Function.comp_def]

end lift

/-! ## Words -/

theorem unsigned_eq {n : Nat} (h : n < 2 ^ 64) : unsigned n = .ok n := if_pos h

theorem signed_eq {i : Int} (hmin : -2 ^ 63 ≤ i) (hmax : i < 2 ^ 63) : signed i = .ok i :=
  if_pos ⟨hmin, hmax⟩

theorem divCeil_eq {m n : Nat} (hn : 0 < n) (hm : m < 2 ^ 63) :
    divCeil m n = .ok ((m + n - 1) / n) := by
  have hdiv := Nat.div_add_mod m n
  have hle := Nat.div_le_self m n
  unfold divCeil
  rw [if_neg (Nat.ne_of_gt hn)]
  split
  · next hmod =>
      have hround : (m + n - 1) / n = m / n := by
        refine Nat.div_eq_of_lt_le ?_ ?_
        · rw [Nat.mul_comm]
          omega
        · rw [Nat.succ_mul, Nat.mul_comm]
          omega
      rw [hround]
      rfl
  · next hmod =>
      have hlt := Nat.mod_lt m hn
      have hround : (m + n - 1) / n = m / n + 1 := by
        refine Nat.div_eq_of_lt_le ?_ ?_
        · rw [Nat.succ_mul, Nat.mul_comm]
          omega
        · rw [Nat.succ_mul, Nat.succ_mul, Nat.mul_comm]
          omega
      rw [hround]
      exact unsigned_eq (by omega)

/-! ## Keys -/

theorem normalize_eq {index : Int} {length : Nat} (hlength : length < 2 ^ 63)
    (hindex : -2 ^ 63 ≤ index) : normalize index length = .ok (normalize? index length) := by
  unfold normalize normalize?
  split
  · rw [signed_eq (by omega) (by omega)]
    simp only [bind, Except.bind]
    rw [signed_eq (by omega) (by omega)]
    rfl
  · rfl

theorem resolveIndex_eq {index : Int} {length bound : Nat} {onAxis : Nat → Bool}
    (hlength : length < 2 ^ 63) (hindex : -2 ^ 63 ≤ index)
    (honAxis : ∀ p, onAxis p = decide (p < bound)) :
    resolveIndex index length onAxis = lift (DenseNumeric.resolveIndex index length bound) := by
  obtain rfl : onAxis = fun p => decide (p < bound) := funext honAxis
  rw [resolveIndex, normalize_eq hlength hindex, DenseNumeric.resolveIndex]
  simp only [bind, Except.bind]
  cases (normalize? index length).filter fun p => decide (p < bound) <;> rfl

/-- The count of a slice is not zero: it starts before its end. -/
theorem resolveKey_eq {key : AxisKey} {length : Nat} (hlength : length < 2 ^ 63)
    (hkey : key.IsWord) : resolveKey key length = lift (key.resolve length) := by
  cases key with
  | position index =>
      rw [resolveKey, resolveIndex_eq hlength hkey.1 fun _ => rfl]
      exact lift_bind fun _ _ => rfl
  | slice s =>
      obtain ⟨start, stop, step⟩ := s
      obtain ⟨⟨hstart, -⟩, hstop, hstep⟩ := hkey
      have hle (p : Nat) : decide (p ≤ length) = decide (p < length + 1) := by
        simp only [Nat.lt_succ_iff]
      have hcount {first last : Nat} (hstep : ¬step = 0) (hlast : last < length + 1) :
          (do let count ← if first < last then do divCeil (← sub last first) step else pure 0
              if count = 0 then throw (.refused (.invalidArgument (.emptySlice start last)))
              return ⟨first, step, count, false⟩ : Checked AxisRun)
            = lift (do if last ≤ first then throw (.invalidArgument (.emptySlice start last))
                       return ⟨first, step, (last - first + step - 1) / step, false⟩) := by
        by_cases hlt : first < last
        · have hsub : sub last first = .ok (last - first) := if_pos (Nat.le_of_lt hlt)
          have hpos : 0 < (last - first + step - 1) / step :=
            (lt_count_iff (Nat.pos_of_ne_zero hstep) hlt).2 (by omega)
          have hdiv := divCeil_eq (m := last - first) (Nat.pos_of_ne_zero hstep) (by omega)
          simp only [hlt, Nat.not_le.2 hlt, if_true, if_false, hsub, hdiv, bind, Except.bind,
            Nat.ne_of_gt hpos]
          rfl
        · simp only [hlt, Nat.not_lt.1 hlt, if_true, if_false]
          rfl
      rw [resolveKey, AxisKey.resolve]
      refine lift_check fun hzero => ?_
      rw [resolveIndex_eq hlength hstart hle]
      refine lift_bind fun first _ => ?_
      cases stop with
      | none => exact hcount hzero (Nat.lt_succ_self length)
      | some stop =>
          simp only
          rw [resolveIndex_eq hlength (hstop stop rfl).1 hle]
          refine lift_bind fun last hlast => ?_
          exact hcount hzero (resolveIndex_eq_ok_iff.1 hlast).2

theorem rows_lt {a : NumArray} (ha : a.IsWordSized) : a.shape.rows < 2 ^ 63 := by
  have hextent := ha.extent_lt
  unfold NumArray.dims at hextent
  cases hs : a.shape with
  | vector n => exact Nat.one_lt_two_pow (by omega)
  | matrix m n => exact hextent m (by simp [hs, Shape.dims])

theorem cols_lt {a : NumArray} (ha : a.IsWordSized) : a.shape.cols < 2 ^ 63 := by
  have hextent := ha.extent_lt
  unfold NumArray.dims at hextent
  cases hs : a.shape with
  | vector n => exact hextent n (by simp [hs, Shape.dims])
  | matrix m n => exact hextent n (by simp [hs, Shape.dims])

theorem resolve_eq {a : NumArray} {key : List AxisKey} (ha : a.IsWordSized)
    (hkey : ∀ entry ∈ key, entry.IsWord) : resolve a key = lift (a.resolve key) := by
  have hrows := rows_lt ha
  have hcols := cols_lt ha
  unfold resolve NumArray.resolve NumArray.ncols NumArray.nrows NumArray.ndim
  generalize a.shape = s at hrows hcols ⊢
  cases s with
  | vector n =>
      match key with
      | [col] =>
          show (do return ⟨.single 0, ← resolveKey col n⟩ : Checked Region)
            = lift (do return ⟨.single 0, ← col.resolve n⟩)
          rw [show resolveKey col n = lift (col.resolve n) from
            resolveKey_eq hcols (hkey col (by simp))]
          exact lift_bind fun _ _ => rfl
      | [] => rfl
      | _ :: _ :: _ => rfl
  | matrix m n =>
      match key with
      | [row, col] =>
          show (do return ⟨← resolveKey row m, ← resolveKey col n⟩ : Checked Region)
            = lift (do return ⟨← row.resolve m, ← col.resolve n⟩)
          rw [show resolveKey row m = lift (row.resolve m) from
              resolveKey_eq hrows (hkey row (by simp)),
            show resolveKey col n = lift (col.resolve n) from
              resolveKey_eq hcols (hkey col (by simp))]
          exact lift_bind fun _ _ => lift_bind fun _ _ => rfl
      | [] => rfl
      | [_] => rfl
      | _ :: _ :: _ :: _ => rfl

/-! ## Places -/

section Places

variable {a : NumArray} {r : Region}

theorem position_eq {run : AxisRun} {length k : Nat} (hrun : run.IsOn length)
    (hlength : length < 2 ^ 63) (hk : k < run.count) : position run k = .ok (run.position k) := by
  have hlt := hrun.position_lt k hk
  unfold AxisRun.position at hlt
  unfold position mul add
  rw [unsigned_eq (by omega)]
  exact unsigned_eq (by omega)

theorem offset_eq {s : Shape} {i j : Nat} (hi : i < s.rows) (hj : j < s.cols)
    (hs : s.numel < 2 ^ 64) : offset s.cols i j = .ok (s.offset i j) := by
  have hlt := Shape.offset_lt_numel hi hj
  unfold Shape.offset at hlt
  unfold offset mul add
  rw [unsigned_eq (by omega)]
  exact unsigned_eq (by omega)

theorem place_eq (hvalid : a.IsValid) (ha : a.IsWordSized) (hr : r.IsIn a.shape) {i j : Nat}
    (hi : i < r.rows.count) (hj : j < r.cols.count) :
    place r a.ncols i j = .ok (a.shape.offset (r.rows.position i) (r.cols.position j)) := by
  unfold place
  rw [position_eq hr.rows (rows_lt ha) hi, position_eq hr.cols (cols_lt ha) hj]
  exact offset_eq (hr.rows.position_lt i hi) (hr.cols.position_lt j hj)
    (hvalid.size ▸ ha.size_lt)

theorem places_eq (hvalid : a.IsValid) (ha : a.IsWordSized) (hr : r.IsIn a.shape) :
    places r a.ncols = .ok (r.places a.shape).toList := by
  rw [Region.places, Shape.toList_tabulate, Shape.rows, Shape.cols]
  exact mapM_pairs_eq_ok fun i j hi hj => place_eq hvalid ha hr hi hj

end Places

/-! ## Planes -/

section Planes

variable {s : Storage} {i : Nat}

theorem load_eq (hs : s.IsValid) (hi : i < s.size) : load s i = .ok (s.load i) := by
  have hre : read s.re i = .ok (s.re.getD i 0) := if_pos hi
  unfold load Storage.load Storage.loadComplex
  rw [hre]
  cases him : s.im with
  | none => rfl
  | some plane =>
      have hplane : read plane i = .ok (plane.getD i 0) :=
        if_pos (Nat.lt_of_lt_of_eq hi (hs.size_im plane him).symm)
      simp only [hplane]
      rfl

theorem store_eq (hs : s.IsValid) (hi : i < s.size) (x : Scalar) :
    store s i x = .ok (s.store i x) := by
  have hre (y : Float) : write s.re i y = .ok (s.re.setIfInBounds i y) := if_pos hi
  unfold store Storage.store Storage.storeComplex
  rw [hre]
  cases him : s.im with
  | none => rfl
  | some plane =>
      have hplane (y : Float) : write plane i y = .ok (plane.setIfInBounds i y) :=
        if_pos (Nat.lt_of_lt_of_eq hi (hs.size_im plane him).symm)
      simp only [hplane]
      rfl

/-- Elements are moved one by one into a run that has a place for each. -/
theorem foldlM_move_eq {t : Storage} (hs : s.IsValid) (ht : t.IsValid) {pairs : List (Nat × Nat)}
    (hpairs : ∀ p ∈ pairs, p.1 < s.size ∧ p.2 < t.size) :
    pairs.foldlM (fun out (src, dst) => do store out dst (← load s src)) t
      = .ok (pairs.foldl (fun out (src, dst) => out.store dst (s.load src)) t) := by
  refine foldlM_eq_ok (P := fun out => out.IsValid ∧ out.size = t.size) ?_ ⟨ht, rfl⟩
  rintro out ⟨hout, hsize⟩ ⟨src, dst⟩ hp
  obtain ⟨hsrc, hdst⟩ := hpairs _ hp
  refine ⟨?_, Storage.storeComplex_isValid hout _ _, (Storage.size_storeComplex _ _ _).trans hsize⟩
  simp only [load_eq hs hsrc]
  exact store_eq hout (hsize ▸ hdst) _

theorem foldlM_store_eq (hs : s.IsValid) {dsts : List Nat} (hdsts : ∀ dst ∈ dsts, dst < s.size)
    (x : Scalar) :
    dsts.foldlM (fun out dst => store out dst x) s
      = .ok (dsts.foldl (fun out dst => out.store dst x) s) := by
  refine foldlM_eq_ok (P := fun out => out.IsValid ∧ out.size = s.size) ?_ ⟨hs, rfl⟩
  rintro out ⟨hout, hsize⟩ dst hdst
  exact ⟨store_eq hout (hsize ▸ hdsts dst hdst) x, Storage.storeComplex_isValid hout _ _,
    (Storage.size_storeComplex _ _ _).trans hsize⟩

/-- Elements that are moved to the places from zero on are picked. -/
theorem foldl_move_eq_pick (hs : s.IsValid) (srcs : Array Nat) :
    srcs.toList.zipIdx.foldl (fun (out : Storage) (src, dst) => out.store dst (s.load src))
      (Storage.zeros srcs.size s.dtype) = s.pick srcs := by
  have hswap : srcs.toList.zipIdx.foldl
        (fun (out : Storage) (src, dst) => out.store dst (s.load src))
        (Storage.zeros srcs.size s.dtype)
      = (srcs.toList.zipIdx.map Prod.swap).foldl
        (fun (acc : Storage) (place, k) => acc.store place (s.load k))
        (Storage.zeros srcs.size s.dtype) := by
    rw [List.foldl_map]
    rfl
  rw [hswap]
  have hzeros := Storage.zeros_isValid srcs.size s.dtype
  have hsize := Storage.foldl_store_induction (P := fun t => t.size = srcs.size)
    (Storage.size_zeros srcs.size s.dtype)
    (fun t i z h => (Storage.size_storeComplex t i z).trans h)
    (srcs.toList.zipIdx.map Prod.swap) s.load
  refine Storage.ext_of_loadComplex ?_ (Storage.pick_isValid hs srcs) ?_ ?_ fun i hi => ?_
  · exact Storage.foldl_store_induction hzeros (fun _ i z h => Storage.storeComplex_isValid h i z)
      _ _
  · exact Storage.foldl_store_induction (P := fun t => t.dtype = s.dtype)
      (show (Storage.zeros srcs.size s.dtype).dtype = s.dtype from rfl) (fun _ _ _ h => h) _ _
  · exact hsize.trans (Storage.size_pick s srcs).symm
  · have hi' : i < srcs.size := hsize ▸ hi
    rw [Storage.loadComplex_pick s hi', ← Storage.element_loadComplex hs,
      ← Storage.toComplex_load hs]
    refine Storage.loadComplex_foldl_store hzeros s.load ?_ (k := srcs[i]) ?_ ?_
    · rw [List.map_map, show Prod.fst ∘ Prod.swap = @Prod.snd Nat Nat from rfl,
        List.zipIdx_map_snd]
      exact List.nodup_range' ..
    · exact List.mem_map.2 ⟨(srcs[i], i), List.mem_zipIdx_iff_getElem?.2 (by simp [hi']), rfl⟩
    · exact Nat.lt_of_lt_of_eq hi' (Storage.size_zeros _ _).symm

end Planes

/-! ## Reading and writing -/

section Region

variable {r : Region} {s t : Shape}

theorem outDims_eq_nil (h : r.shape? = none) : outDims r = [] := by
  obtain ⟨hrows, hcols⟩ := Region.shape?_eq_none_iff.1 h
  simp [outDims, hrows, hcols]

theorem outDims_eq_dims (h : r.shape? = some t) : outDims r = t.dims := by
  obtain ⟨⟨first, step, m, collapsed⟩, ⟨first', step', n, collapsed'⟩⟩ := r
  cases collapsed <;> cases collapsed' <;> cases h <;> rfl

theorem foldlM_mul_eq (ht : t.IsPositive) (hsize : t.numel < 2 ^ 64) :
    t.dims.foldlM mul 1 = .ok t.numel := by
  cases t with
  | vector n => exact congrArg (· >>= pure) (unsigned_eq hsize)
  | matrix m n =>
      have hle : m ≤ m * n := Nat.le_mul_of_pos_right m ht.2
      have hm : mul 1 m = .ok m := by
        rw [mul, Nat.one_mul]
        exact unsigned_eq (Nat.lt_of_le_of_lt hle hsize)
      simp only [Shape.dims, List.foldlM_cons, List.foldlM_nil, hm]
      exact congrArg (· >>= pure) (unsigned_eq hsize)

/-- A region has no more elements than the array. -/
theorem count_mul_count_le (hr : r.IsIn s) : r.rows.count * r.cols.count ≤ s.numel :=
  Nat.mul_le_mul hr.rows.count_le hr.cols.count_le

end Region

section Reading

variable {a : NumArray} {key : List AxisKey} (hvalid : a.IsValid) (ha : a.IsWordSized)
include hvalid ha

theorem get_eq (hkey : ∀ entry ∈ key, entry.IsWord) : get a key = lift (a.get key) := by
  have hsize : a.shape.numel < 2 ^ 64 := hvalid.size ▸ ha.size_lt
  unfold get NumArray.get
  rw [resolve_eq ha hkey]
  refine lift_bind fun r hresolve => ?_
  have hr := NumArray.isIn_of_resolve hresolve
  unfold NumArray.select
  cases hshape : r.shape? with
  | none =>
      have hrows := hr.rows.position_lt 0 hr.rows.count_pos
      have hcols := hr.cols.position_lt 0 hr.cols.count_pos
      have hload := Storage.load_pick_places a.storage a.shape hr.rows.count_pos hr.cols.count_pos
      simp only [AxisRun.position, Nat.zero_mul, Nat.add_zero] at hrows hcols hload
      have hoffset : offset a.ncols r.rows.first r.cols.first = .ok (a.shape.offset _ _) :=
        offset_eq hrows hcols hsize
      have hplace := Nat.lt_of_lt_of_eq (Shape.offset_lt_numel hrows hcols) hvalid.size.symm
      simp only [outDims_eq_nil hshape, List.isEmpty_nil, if_true, hoffset, hload, bind,
        Except.bind, load_eq hvalid.storage hplace]
      rfl
  | some t =>
      obtain ⟨ht, hnumel⟩ := Region.shape?_eq_some hr hshape
      have hlt : t.numel < 2 ^ 64 :=
        Nat.lt_of_le_of_lt (hnumel ▸ count_mul_count_le hr) hsize
      have hempty : t.dims.isEmpty = false := by cases t <;> rfl
      have hpairs : ∀ p ∈ (r.places a.shape).toList.zipIdx,
          p.1 < a.storage.size ∧ p.2 < (Storage.zeros t.numel a.dtype).size := by
        rintro ⟨src, dst⟩ hp
        have hget := List.mem_zipIdx_iff_getElem?.1 hp
        obtain ⟨hdst, -⟩ := List.getElem?_eq_some_iff.1 hget
        rw [Array.length_toList, Region.size_places, ← hnumel] at hdst
        have hsrc := Region.lt_numel_of_mem_places hr
          (Array.mem_toList_iff.1 (List.mem_of_getElem? hget))
        exact ⟨Nat.lt_of_lt_of_eq hsrc hvalid.size.symm,
          Nat.lt_of_lt_of_eq hdst (Storage.size_zeros _ _).symm⟩
      have hmove := foldlM_move_eq hvalid.storage (Storage.zeros_isValid t.numel a.dtype) hpairs
      have hcount : t.numel = (r.places a.shape).size := by rw [hnumel, Region.size_places]
      simp only [outDims_eq_dims hshape, hempty, Bool.false_eq_true, if_false,
        foldlM_mul_eq ht hlt, places_eq hvalid ha hr, ok_bind]
      rw [hmove, hcount, ok_bind]
      have hpick := foldl_move_eq_pick hvalid.storage (r.places a.shape)
      unfold NumArray.dtype
      rw [hpick, Shape.ofDims_dims ht]
      exact if_pos (hcount.trans (Storage.size_pick _ _).symm)

/-- An index of positions leaves no axis. -/
theorem item_eq {index : List Int} (hindex : ∀ i ∈ index, -2 ^ 63 ≤ i ∧ i < 2 ^ 63) :
    item a index = lift (a.item index) := by
  have hkey : ∀ entry ∈ index.map AxisKey.position, entry.IsWord := List.forall_mem_map.2 hindex
  unfold item NumArray.item
  rw [get_eq hvalid ha hkey, NumArray.get]
  cases hresolve : a.resolve (index.map .position) with
  | error e => rfl
  | ok r =>
      have hshape : r.shape? = none :=
        (NumArray.shape?_eq_none_iff hresolve).2 (by simp [AxisKey.isPosition])
      show (match a.select r with
        | .scalar x => pure x
        | .array _ => throw .unreachable : Checked Scalar) = _
      rw [NumArray.select, hshape]
      rfl

/-- A row or a column keeps an axis. -/
theorem line_eq {axis : Axis} {index : Int} (hindex : -2 ^ 63 ≤ index ∧ index < 2 ^ 63) :
    line a axis index = lift (a.line axis index) := by
  have hall : AxisKey.IsWord .all := by simp [AxisKey.IsWord, AxisKey.all]
  have hkey : ∀ entry ∈ (match axis with
      | .rows => [.position index, .all]
      | .cols => [.all, .position index] : List AxisKey), entry.IsWord := by
    cases axis with
    | rows => exact List.forall_mem_cons.2 ⟨hindex, List.forall_mem_singleton.2 hall⟩
    | cols => exact List.forall_mem_cons.2 ⟨hall, List.forall_mem_singleton.2 hindex⟩
  unfold line NumArray.line
  refine lift_check fun _ => ?_
  rw [get_eq hvalid ha hkey, NumArray.get]
  generalize hresolve : a.resolve _ = resolved
  cases resolved with
  | error e => rfl
  | ok r =>
      obtain ⟨t, ht⟩ := NumArray.exists_shape?_of_resolve_line hresolve
      show (match a.select r with
        | .array b => pure b
        | .scalar _ => throw .unreachable : Checked NumArray) = _
      rw [NumArray.select, ht]
      show _ = lift (pure (NumArray.mk (r.shape?.getD a.shape) _))
      rw [ht]
      rfl

theorem setScalar_eq (hkey : ∀ entry ∈ key, entry.IsWord) (value : Scalar) :
    setScalar a key value = lift (a.setScalar key value) := by
  unfold setScalar NumArray.setScalar
  rw [resolve_eq ha hkey]
  refine lift_bind fun r hresolve => ?_
  have hr := NumArray.isIn_of_resolve hresolve
  have hdsts : ∀ dst ∈ (r.places a.shape).toList, dst < a.storage.size := fun dst hdst =>
    Nat.lt_of_lt_of_eq (Region.lt_numel_of_mem_places hr (Array.mem_toList_iff.1 hdst))
      hvalid.size.symm
  rw [places_eq hvalid ha hr, ok_bind, foldlM_store_eq hvalid.storage hdsts, ok_bind,
    ← Storage.assign_const]
  rfl

end Reading

end Checked

end DenseNumeric
