import Bimatrix.Solver

/-! # Batches of random games

Games drawn one after another from a stream of payoffs, each solved and checked.
-/
namespace Bimatrix

structure Batch where
  verified : Nat := 0
  refuted : Nat := 0
  degenerate : Nat := 0
  unfinished : Nat := 0
  pivots : Nat := 0
  deriving DecidableEq

namespace Batch

variable {α : Type} [Scalar α]

def solved (b : Batch) : Nat := b.verified + b.refuted

/-- The `i`-th game of a stream: the row player's payoffs row by row, then the column player's. -/
def game? (payoff : Nat → α) (n m i : Nat) : Except Fault (Game α n m) := do
  Table.checkShape n m
  let start := i * (2 * (n * m))
  Game.ofPayoffs?
    (fun (r : Fin n) (c : Fin m) => payoff (start + (r * m + c)))
    (fun (r : Fin n) (c : Fin m) => payoff (start + (n * m + (r * m + c))))

/-- Enters the outcome of one game.  A fault other than the two that a path can end in is no
outcome. -/
def record {n m : Nat} (b : Batch) (g : Game α n m) :
    Except Fault (Equilibrium α n m) → Except Fault Batch
  | .ok e =>
    let b := { b with pivots := b.pivots + e.pivots }
    if g.isEquilibrium e.profile Scalar.tolerance then .ok { b with verified := b.verified + 1 }
    else .ok { b with refuted := b.refuted + 1 }
  | .error (.degeneratePivot _) => .ok { b with degenerate := b.degenerate + 1 }
  | .error (.notConverged _) => .ok { b with unfinished := b.unfinished + 1 }
  | .error fault => .error fault

def step (s : Solver) (payoff : Nat → α) (n m i : Nat) (b : Batch) : Except Fault Batch := do
  let g ← game? payoff n m i
  b.record g (s.solve g)

def runFrom (s : Solver) (payoff : Nat → α) (n m i : Nat) (b : Batch) :
    (games : Nat) → Except Fault Batch
  | 0 => .ok b
  | games + 1 =>
    match step s payoff n m i b with
    | .error fault => .error fault
    | .ok b => runFrom s payoff n m (i + 1) b games

def run (s : Solver) (payoff : Nat → α) (n m games : Nat) : Except Fault Batch :=
  runFrom s payoff n m 0 {} games

def payoff (key : Random.Key) (i : Nat) : Float := Random.payoffOfDraw (Random.draw key i)

end Batch

end Bimatrix
