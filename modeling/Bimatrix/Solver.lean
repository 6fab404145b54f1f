import Bimatrix.Event
import Bimatrix.Random.Uniform

/-! # The solver

A warm start opens a gap in the complementary pair of a game; the path that closes it ends at an
equilibrium.
-/
namespace Bimatrix

inductive Start where
  | label (k : UInt64)
  /-- Drawn from a generator with this seed. -/
  | seed (s : UInt64)
  deriving DecidableEq

structure Solver where
  start : Start := .label 0
  /-- The walk looks at the pair at most this often. -/
  bound : UInt64 := 1000
  deriving DecidableEq

structure Equilibrium (α : Type) (n m : Nat) where
  profile : Profile α n m
  start : Nat
  pivots : Nat

structure Run (α : Type) (n m : Nat) where
  events : List Event
  result : Except Fault (Equilibrium α n m)

namespace Solver

variable {α : Type} [Scalar α] {n m : Nat}

def startingLabel (s : Solver) (n : Nat) : Except Fault (Fin n) :=
  match s.start with
  | .label k =>
    if h : k.toNat < n then .ok ⟨k.toNat, h⟩ else .error (.invalid (.startOutOfRange k.toNat n))
  | .seed seed =>
    if h : 0 < n then .ok (Random.below seed n h) else .error (.invalid .noStart)

def conclude (start bound : Nat) (w : Walk α n (n + m) m (n + m)) :
    Except Fault (Equilibrium α n m) :=
  match w.ending with
  | .complete => do
    let s ← w.last.profile?
    return ⟨⟨s.row, s.column.cast (Nat.add_sub_cancel_left ..)⟩, start, w.moves.length⟩
  | .stuck fault => .error fault
  | .exhausted => .error (.notConverged bound)

/-- The starting label enters the column tableau; then the row player moves first. -/
def runFrom (g : Game α n m) (start bound : Nat) : Run α n m :=
  match g.tableaus.pivot .column start with
  | .error fault => ⟨[.startFailed fault], .error fault⟩
  | .ok (swap, opened) =>
    let w := opened.walk .row [] bound
    ⟨.pivoted swap :: w.events start bound, conclude start bound w⟩

def run (s : Solver) (g : Game α n m) : Run α n m :=
  match s.startingLabel n with
  | .error fault => ⟨[], .error fault⟩
  | .ok start => runFrom g start s.bound.toNat

/-- The tableaus of a run are taken to fit in memory; that they are too large is not among its
faults. -/
def solve (s : Solver) (g : Game α n m) : Except Fault (Equilibrium α n m) := (s.run g).result

end Solver

end Bimatrix
