import DenseNumeric.Decimal.Text

/-!
# Records

What an algorithm notes while it runs, as data: a run gives its records, in
order, beside its result. `Record.message` words them.
-/

namespace DenseNumeric

/-- How much a record matters. -/
inductive Level where
  | trace
  | debug
  | warn
deriving DecidableEq, Repr

/-- Something that happened during a run over the reals `R`. -/
inductive Record (R : Type) where
  /-- A pivot next to zero, compared with the largest entry of the matrix. -/
  | tinyPivot (size : R) (column : Nat) (scale : R)
  /-- The entry below the diagonal in column `k` was negligible, after some
  sweeps since the last such entry. -/
  | deflation (k iterations : Nat)
  /-- A triangular form was reached. -/
  | converged (order sweeps : Nat)
  /-- A block took too many sweeps. -/
  | gaveUp (low high iterations : Nat)
  /-- Eigenvalues were found, and which eigenvectors were asked for. -/
  | eigensystem (order : Nat) (left right : Bool)
deriving DecidableEq

namespace Record

def level {R : Type} : Record R → Level
  | tinyPivot _ _ _ => .warn
  | deflation _ _ => .trace
  | converged _ _ | gaveUp _ _ _ | eigensystem _ _ _ => .debug

/-- A magnitude with four significant digits. -/
def magnitudeText (x : Float) : String :=
  .ofList (Binary.scientificText 3 x.toModel.unpack)

/-- The wording of a record. -/
def message : Record Float → String
  | tinyPivot size column scale =>
    "gauss-jordan pivot " ++ magnitudeText size ++ " in column " ++ toString column
      ++ " is tiny relative to matrix scale " ++ magnitudeText scale
  | deflation k iterations =>
    "qr deflation at (" ++ toString (k + 1) ++ ", " ++ toString k ++ ") after "
      ++ toString iterations ++ " iterations"
  | converged order sweeps =>
    "qr converged: n=" ++ toString order ++ ", " ++ toString sweeps ++ " sweeps"
  | gaveUp low high iterations =>
    "qr gave up on block [" ++ toString low ++ ", " ++ toString high ++ ") after "
      ++ toString iterations ++ " iterations"
  | eigensystem order left right =>
    "eig: n=" ++ toString order ++ ", left=" ++ toString left ++ ", right=" ++ toString right

end Record

/-- A value and the records of the run that gave it. -/
structure Logged (R α : Type) where
  records : List (Record R)
  value : α
deriving DecidableEq

namespace Logged

variable {R α β : Type}

/-- A value without records. -/
def quiet (x : α) : Logged R α := ⟨[], x⟩

/-- The value changed, the records kept. -/
def map (f : α → β) (l : Logged R α) : Logged R β := ⟨l.records, f l.value⟩

/-- Goes on with the value, the later records after the earlier ones. -/
def andThen (l : Logged R α) (f : α → Logged R β) : Logged R β :=
  let next := f l.value
  ⟨l.records ++ next.records, next.value⟩

end Logged

end DenseNumeric
