import DenseNumeric.NumArray.Selection
import DenseNumeric.Proofs.Results

/-!
# What a key selects

The rule for one axis, without the arithmetic that finds it. An index counts
from the end if it is negative. A position selects where its index lies, which
is on the axis; a slice selects every `step`-th place from its start to before
its bound, and start and bound lie on the axis or just behind it.

Resolving a key succeeds exactly when the rule can be followed, and the run it
gives is the one of the rule: the quotient that counts a slice is the number of
places before the bound.
-/

namespace DenseNumeric

/-! ## Indices -/

/-- Where an index points, counted from the start of an axis. It need not be
on the axis. -/
def fromStart (index : Int) (length : Nat) : Int :=
  if index < 0 then length + index else index

theorem resolveIndex_eq_ok_iff {index : Int} {length bound i : Nat} :
    resolveIndex index length bound = .ok i ↔ fromStart index length = i ∧ i < bound := by
  have hnormalize : normalize? index length
      = if 0 ≤ fromStart index length then some (fromStart index length).toNat else none := rfl
  rw [resolveIndex, hnormalize]
  generalize fromStart index length = p
  by_cases hp : 0 ≤ p
  · rw [if_pos hp, Option.filter_some]
    by_cases hb : p.toNat < bound
    · simp only [hb, decide_true, if_true, Except.ok.injEq]
      omega
    · simp only [hb, decide_false, Bool.false_eq_true, if_false, reduceCtorEq, false_iff]
      omega
  · rw [if_neg hp, Option.filter_none]
    simp only [reduceCtorEq, false_iff]
    omega

/-! ## Slices -/

/-- The place a slice starts from. -/
def Slice.first (s : Slice) (length : Nat) : Int := fromStart s.start length

/-- The place before which a slice ends. -/
def Slice.bound (s : Slice) (length : Nat) : Int :=
  match s.stop with
  | none => length
  | some stop => fromStart stop length

/-- The number of steps from `first` that stay before `last`. -/
theorem lt_count_iff {first last step k : Nat} (hstep : 0 < step) (hlt : first < last) :
    k < (last - first + step - 1) / step ↔ first + k * step < last := by
  rw [← Nat.succ_le_iff, Nat.le_div_iff_mul_le hstep, Nat.succ_mul]
  omega

/-! ## Keys of one axis -/

/-- The key selects something on an axis of a given length. -/
def AxisKey.IsAdmissible (key : AxisKey) (length : Nat) : Prop :=
  match key with
  | .position index => -(length : Int) ≤ index ∧ index < length
  | .slice s =>
    1 ≤ s.step ∧ (0 ≤ s.first length ∧ s.first length ≤ length)
      ∧ (0 ≤ s.bound length ∧ s.bound length ≤ length) ∧ s.first length < s.bound length

/-- The `k`-th place that a key selects is `p`. -/
def AxisKey.Selects (key : AxisKey) (length k : Nat) (p : Int) : Prop :=
  match key with
  | .position index => k = 0 ∧ p = fromStart index length
  | .slice s => p = s.first length + k * s.step ∧ p < s.bound length

/-- A position, which leaves no axis behind. -/
def AxisKey.isPosition : AxisKey → Bool
  | .position _ => true
  | .slice _ => false

namespace AxisKey

variable {key : AxisKey} {length : Nat} {r : AxisRun}

theorem resolve_position_eq_ok_iff {index : Int} :
    (position index).resolve length = .ok r
      ↔ ∃ p : Nat, fromStart index length = p ∧ p < length ∧ .single p = r := by
  simp only [resolve, bind_eq_ok, resolveIndex_eq_ok_iff, pure, Except.pure, Except.ok.injEq,
    and_assoc]

theorem resolve_slice_eq_ok_iff {s : Slice} :
    (slice s).resolve length = .ok r
      ↔ 0 < s.step ∧ ∃ first last : Nat, s.first length = first ∧ s.bound length = last
        ∧ first < last ∧ last ≤ length
        ∧ ⟨first, s.step, (last - first + s.step - 1) / s.step, false⟩ = r := by
  obtain ⟨start, stop, step⟩ := s
  have hsplit : (slice ⟨start, stop, step⟩).resolve length = .ok r
      ↔ ¬step = 0 ∧ ∃ first : Nat, (fromStart start length = first ∧ first < length + 1)
        ∧ ∃ last : Nat, (Slice.bound ⟨start, stop, step⟩ length = last ∧ last < length + 1)
        ∧ ¬last ≤ first ∧ ⟨first, step, (last - first + step - 1) / step, false⟩ = r := by
    cases stop with
    | none =>
        simp only [resolve, check_eq_ok, bind_eq_ok, resolveIndex_eq_ok_iff, pure_eq_ok,
          Slice.bound]
        refine and_congr_right fun _ => exists_congr fun first => and_congr_right fun _ =>
          exists_congr fun last => and_congr_left fun _ => ?_
        omega
    | some stop =>
        simp only [resolve, check_eq_ok, bind_eq_ok, resolveIndex_eq_ok_iff, pure_eq_ok,
          Slice.bound]
  rw [hsplit]
  constructor
  · rintro ⟨hstep, first, ⟨hfirst, -⟩, last, ⟨hlast, hle⟩, hlt, hr⟩
    exact ⟨Nat.pos_of_ne_zero hstep, first, last, hfirst, hlast, by omega, by omega, hr⟩
  · rintro ⟨hstep, first, last, hfirst, hlast, hlt, hle, hr⟩
    exact ⟨Nat.ne_of_gt hstep, first, ⟨hfirst, by omega⟩, last, ⟨hlast, by omega⟩, by omega, hr⟩

/-- A key is resolved exactly when the rule can be followed. -/
theorem exists_resolve_iff :
    (∃ r, key.resolve length = .ok r) ↔ key.IsAdmissible length := by
  cases key with
  | position index =>
      simp only [resolve_position_eq_ok_iff, IsAdmissible, fromStart]
      constructor
      · rintro ⟨-, p, hp, hlt, -⟩
        split at hp <;> omega
      · rintro ⟨hlow, hhigh⟩
        refine ⟨_, (fromStart index length).toNat, ?_, ?_, rfl⟩ <;>
        · rw [fromStart]
          split <;> omega
  | slice s =>
      simp only [resolve_slice_eq_ok_iff, IsAdmissible]
      constructor
      · rintro ⟨-, hstep, first, last, hfirst, hlast, hlt, hle, -⟩
        omega
      · rintro ⟨hstep, hfirst, hlast, hlt⟩
        exact ⟨_, hstep, (s.first length).toNat, (s.bound length).toNat, by omega, by omega,
          by omega, by omega, rfl⟩

theorem collapsed_of_resolve (h : key.resolve length = .ok r) : r.collapsed = key.isPosition := by
  cases key with
  | position index =>
      obtain ⟨-, -, -, rfl⟩ := resolve_position_eq_ok_iff.1 h
      rfl
  | slice s =>
      obtain ⟨-, -, -, -, -, -, -, rfl⟩ := resolve_slice_eq_ok_iff.1 h
      rfl

theorem position_of_resolve_position {index : Int} (h : (position index).resolve length = .ok r) :
    r.count = 1 ∧ (r.position 0 : Int) = fromStart index length := by
  obtain ⟨p, hp, -, rfl⟩ := resolve_position_eq_ok_iff.1 h
  simp [AxisRun.single, AxisRun.position, hp]

/-- The run of a slice goes on as long as it stays before the bound. -/
theorem position_of_resolve_slice {s : Slice} (h : (slice s).resolve length = .ok r) (k : Nat) :
    (k < r.count ↔ s.first length + k * s.step < s.bound length)
      ∧ (r.position k : Int) = s.first length + k * s.step := by
  obtain ⟨hstep, first, last, hfirst, hlast, hlt, -, rfl⟩ := resolve_slice_eq_ok_iff.1 h
  rw [hfirst, hlast, lt_count_iff hstep hlt, AxisRun.position, Int.natCast_add, Int.natCast_mul]
  exact ⟨by omega, rfl⟩

/-- The run of a key is what the key selects, in order. -/
theorem selects_iff_of_resolve (h : key.resolve length = .ok r) {k : Nat} {p : Int} :
    key.Selects length k p ↔ k < r.count ∧ p = r.position k := by
  cases key with
  | position index =>
      obtain ⟨hcount, hfirst⟩ := position_of_resolve_position h
      rw [Selects, hcount, Nat.lt_one_iff]
      refine and_congr_right fun hk => ?_
      rw [hk, hfirst]
  | slice s =>
      obtain ⟨hlt, hplace⟩ := position_of_resolve_slice h k
      rw [Selects, hlt, hplace, and_comm]
      refine and_congr_left fun hp => ?_
      rw [hp]

end AxisKey

/-! ## Runs on an axis -/

/-- A run of places on an axis, one of them if the axis is collapsed. -/
structure AxisRun.IsOn (r : AxisRun) (length : Nat) : Prop where
  step_pos : 0 < r.step
  count_pos : 0 < r.count
  count_eq_one : r.collapsed = true → r.count = 1
  position_lt : ∀ k < r.count, r.position k < length

theorem AxisRun.IsOn.single {p length : Nat} (h : p < length) : (AxisRun.single p).IsOn length where
  step_pos := Nat.one_pos
  count_pos := Nat.one_pos
  count_eq_one _ := rfl
  position_lt k hk := by
    obtain rfl : k = 0 := Nat.lt_one_iff.1 hk
    simpa [AxisRun.single, position] using h

theorem AxisKey.isOn_of_resolve {key : AxisKey} {length : Nat} {r : AxisRun}
    (h : key.resolve length = .ok r) : r.IsOn length := by
  cases key with
  | position index =>
      obtain ⟨p, -, hp, rfl⟩ := resolve_position_eq_ok_iff.1 h
      exact .single hp
  | slice s =>
      obtain ⟨hstep, first, last, -, -, hlt, hle, rfl⟩ := resolve_slice_eq_ok_iff.1 h
      refine ⟨hstep, (lt_count_iff hstep hlt).2 ?_, nofun, fun k hk => ?_⟩
      · simpa using hlt
      · exact Nat.lt_of_lt_of_le ((lt_count_iff hstep hlt).1 hk) hle

/-! ## Regions of an array -/

/-- Runs on both axes of a shape. -/
structure Region.IsIn (r : Region) (s : Shape) : Prop where
  rows : r.rows.IsOn s.rows
  cols : r.cols.IsOn s.cols

namespace NumArray

variable {a : NumArray} {key : List AxisKey} {r : Region}

theorem resolve_vector_eq_ok_iff {n : Nat} (hs : a.shape = .vector n) :
    a.resolve key = .ok r
      ↔ ∃ col run, key = [col] ∧ col.resolve n = .ok run ∧ ⟨.single 0, run⟩ = r := by
  unfold resolve
  rw [hs]
  rcases key with _ | ⟨col, _ | ⟨col', key⟩⟩ <;>
    simp [bind_eq_ok, pure_eq_ok, -bind_pure_comp]

theorem resolve_matrix_eq_ok_iff {m n : Nat} (hs : a.shape = .matrix m n) :
    a.resolve key = .ok r
      ↔ ∃ row col rows cols, key = [row, col] ∧ row.resolve m = .ok rows
        ∧ col.resolve n = .ok cols ∧ ⟨rows, cols⟩ = r := by
  unfold resolve
  rw [hs]
  rcases key with _ | ⟨row, _ | ⟨col, _ | ⟨col', key⟩⟩⟩ <;>
    simp [bind_eq_ok, pure_eq_ok, and_assoc, -bind_pure_comp]

/-- A key that is resolved gives places of the array. -/
theorem isIn_of_resolve (h : a.resolve key = .ok r) : r.IsIn a.shape := by
  cases hs : a.shape with
  | vector n =>
      obtain ⟨col, run, -, hcol, rfl⟩ := (resolve_vector_eq_ok_iff hs).1 h
      exact ⟨.single Nat.one_pos, col.isOn_of_resolve hcol⟩
  | matrix m n =>
      obtain ⟨row, col, rows, cols, -, hrow, hcol, rfl⟩ := (resolve_matrix_eq_ok_iff hs).1 h
      exact ⟨row.isOn_of_resolve hrow, col.isOn_of_resolve hcol⟩

end NumArray

end DenseNumeric
