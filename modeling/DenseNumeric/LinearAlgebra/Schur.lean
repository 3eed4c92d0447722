import DenseNumeric.Error
import DenseNumeric.LinearAlgebra.Hessenberg
import DenseNumeric.LinearAlgebra.Record
import DenseNumeric.LinearAlgebra.Rotation

/-!
# Triangular form by shifted sweeps

A Hessenberg matrix is made triangular by sweeps over a block of it, from
`low` to before `high`. As soon as a subdiagonal entry of the block is
negligible it is set to zero, and the block is what remains below it; once a
block of one row is left, the whole part above it is next. The run ends with
nothing above.

Every step makes `high` smaller, or the block, or the number of sweeps that
are still allowed before the next deflation. So every run ends, whatever the
arithmetic returns.
-/

namespace DenseNumeric

variable {R : Type} [Arith R] {n : Nat}

/-! ## The shift -/

/-- The eigenvalue of the last two rows and columns before `high` that is
nearer to the last entry. The four entries are first divided by the largest
taxicab length among them; where that is zero or not finite, the last entry
serves as it is. -/
def wilkinsonShift (a : DenseMatrix n n (Complex R)) (high : Nat) : Complex R :=
  let p := a (high - 2) (high - 2)
  let b := a (high - 2) (high - 1)
  let c := a (high - 1) (high - 2)
  let d := a (high - 1) (high - 1)
  let scale := Arith.largestOver [p, b, c, d] Complex.taxicab
  if scale == 0 || !Arith.isFinite scale then d
  else
    let p := p.divReal scale
    let b := b.divReal scale
    let c := c.divReal scale
    let d := d.divReal scale
    let half : R := 1 / (2 : Nat)
    let trace := p + d
    let difference := d - p
    let discriminant := difference * difference + (c * b).scale ((4 : Nat) : R)
    let root :=
      if 0 < discriminant.re then discriminant.sqrt else (-discriminant).sqrt * Complex.i
    let first := (trace + root).scale half
    let second := (trace - root).scale half
    let nearer := if (d - second).magnitude < (d - first).magnitude then second else first
    nearer.scale scale

/-! ## The iteration -/

/-- A run: the matrix, the block under work, the sweeps since the last
deflation and since the start, and the records. -/
structure QrState (n : Nat) (R : Type) where
  current : Similar n R
  low : Nat
  high : Nat
  iterations : Nat
  sweeps : Nat
  records : List (Record R)

namespace QrState

/-- The shift for the next sweep. Every now and then it is not the usual
one, in case a block goes round in circles. -/
def shift (s : QrState n R) (norm : R) : Complex R :=
  let a := s.current.matrix
  let last := a (s.high - 1) (s.high - 2)
  match s.iterations % 30 with
  | 10 => last
  | 20 => .ofReal last.magnitude
  | 29 => .ofReal norm
  | _ => wilkinsonShift a s.high

/-- The first column of the block whose subdiagonal entry is negligible
beside the diagonal entries next to it or, if those are small, beside `norm`. -/
def negligible? (s : QrState n R) (norm : R) : Option Nat :=
  let a := s.current.matrix
  (List.range' s.low (s.high - 1 - s.low)).find? fun k =>
    let neighbours := (a k k).taxicab + (a (k + 1) (k + 1)).taxicab
    let weight := if neighbours < Arith.epsilon * norm then norm else neighbours
    (a (k + 1) k).magnitude < Arith.epsilon * weight

/-- Drops the subdiagonal entry in column `k`. The block goes on below it, or,
where only one row is below, above it. -/
def deflate (s : QrState n R) (k : Nat) : QrState n R :=
  { s with
    current := { s.current with matrix := s.current.matrix.set (k + 1) k 0 }
    low := if s.high ≤ k + 2 then 0 else k + 1
    high := if s.high ≤ k + 2 then k + 1 else s.high
    iterations := 0
    records := s.records ++ [.deflation k s.iterations] }

/-- One sweep over the block. -/
def sweep (s : QrState n R) (norm : R) : QrState n R :=
  { s with
    current := s.current.sweep s.low s.high (s.shift norm)
    iterations := s.iterations + 1
    sweeps := s.sweeps + 1 }

/-- A deflation if there is one, and otherwise a sweep. -/
def step (s : QrState n R) (norm : R) : QrState n R :=
  match s.negligible? norm with
  | some k => s.deflate k
  | none => s.sweep norm

/-- A bound on the steps that are left. It weighs the end of the block above
its size, and both above the sweeps that the block may still take. -/
def remaining (limit : Nat) (s : QrState n R) : Nat :=
  (s.high * s.high + (s.high - s.low)) * (limit + 2) + (limit + 1 - s.iterations)

theorem negligible?_bounds {s : QrState n R} {norm : R} {k : Nat}
    (h : s.negligible? norm = some k) : s.low ≤ k ∧ k + 1 < s.high := by
  have := List.mem_range'_1.1 (List.mem_of_find?_eq_some h)
  omega

theorem remaining_deflate_lt {limit k : Nat} {s : QrState n R} (hlow : s.low ≤ k)
    (hhigh : k + 1 < s.high) : (s.deflate k).remaining limit < s.remaining limit := by
  have block : (s.deflate k).high * (s.deflate k).high + ((s.deflate k).high - (s.deflate k).low) + 1
      ≤ s.high * s.high + (s.high - s.low) := by
    simp only [deflate]
    split
    · have := Nat.mul_le_mul hhigh hhigh
      rw [Nat.succ_mul, Nat.mul_succ] at this
      omega
    · omega
  have := Nat.mul_le_mul_right (limit + 2) block
  rw [Nat.succ_mul] at this
  unfold remaining
  omega

theorem remaining_sweep_lt {limit : Nat} {s : QrState n R} (norm : R)
    (h : s.iterations ≤ limit) : (s.sweep norm).remaining limit < s.remaining limit := by
  simp only [remaining, sweep]
  omega

theorem remaining_step_lt {limit : Nat} {s : QrState n R} (norm : R)
    (h : s.iterations ≤ limit) : (s.step norm).remaining limit < s.remaining limit := by
  unfold step
  split
  · rename_i k hk
    have ⟨hlow, hhigh⟩ := negligible?_bounds hk
    exact remaining_deflate_lt hlow hhigh
  · exact remaining_sweep_lt norm h

/-- Steps until the block has fewer than two rows, or has taken more than
`limit` sweeps. -/
def run (norm : R) (limit : Nat) (s : QrState n R) : QrState n R :=
  if _ : s.high < 2 ∨ limit < s.iterations then s
  else run norm limit (s.step norm)
termination_by s.remaining limit
decreasing_by exact remaining_step_lt norm (by omega)

/-- What a run comes to. -/
def outcome (s : QrState n R) : Logged R (Except Error (Similar n R)) :=
  if s.high < 2 then ⟨s.records ++ [.converged n s.sweeps], .ok s.current⟩
  else ⟨s.records ++ [.gaveUp s.low s.high s.iterations], .error (.noConvergence s.iterations)⟩

end QrState

/-- The Euclidean length of the entries on and above the subdiagonal, divided
by the order. -/
def meanNorm (a : DenseMatrix n n (Complex R)) : R :=
  let band := (List.range n).flatMap fun j => (List.range (min (j + 2) n)).map (a · j)
  DenseMatrix.lengthOf band / (n : R)

/-- Makes a Hessenberg matrix triangular. No block may take more than `limit`
sweeps. -/
def Similar.triangularize (p : Similar n R) (limit : Nat) :
    Logged R (Except Error (Similar n R)) :=
  let norm := meanNorm p.matrix
  if n ≤ 1 || norm == 0 then .quiet (.ok p)
  else (QrState.run norm limit ⟨p, 0, n, 0, 0, []⟩).outcome

/-- The sweeps that a block may take unless something else is asked for. -/
def defaultLimit : Nat := 60

end DenseNumeric
