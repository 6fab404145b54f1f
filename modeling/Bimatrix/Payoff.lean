import Bimatrix.Game
import Bimatrix.Profile
import Bimatrix.Summation

/-! # Payoffs and regret

Expected payoffs under a mixed profile, what a player gives up by playing it, and the test for an
equilibrium.
-/
namespace Bimatrix.Game

open Summation

variable {α : Type} [Scalar α] {n m : Nat}

def rowPayoffs (g : Game α n m) (s : Profile α n m) : Vector α n :=
  g.row.map fun us => dot us s.column

/-- Every column against the row player's mix.  A lone column is summed in lanes. -/
def columnPayoffs (g : Game α n m) (s : Profile α n m) : Vector α m :=
  Vector.ofFn fun j =>
    let us := g.column.column j
    if m = 1 then dot s.row us else sequentialDot s.row us

def expected (t : Table α n m) (s : Profile α n m) : α :=
  dot (t.map fun us => dot us s.column) s.row

def rowPayoff (g : Game α n m) (s : Profile α n m) : α := expected g.row s

def columnPayoff (g : Game α n m) (s : Profile α n m) : α := expected g.column s

def rowRegret (g : Game α n m) (s : Profile α n m) : α :=
  Scalar.largest (g.rowPayoffs s).toList - g.rowPayoff s

def columnRegret (g : Game α n m) (s : Profile α n m) : α :=
  Scalar.largest (g.columnPayoffs s).toList - g.columnPayoff s

/-- No strategy is played with more than `ε` whose payoff falls short of the best by more than
`slack`. -/
def isBestResponse (mix payoffs : Vector α n) (ε slack : α) : Bool :=
  let floor := Scalar.largest payoffs.toList - slack
  (List.finRange n).all fun i => decide (mix.get i ≤ ε) || decide (floor ≤ payoffs.get i)

/-- Both mixes are best responses, with payoffs compared relative to the scale of the game. -/
def isEquilibrium (g : Game α n m) (s : Profile α n m) (ε : α) : Bool :=
  let slack := ε * g.scale
  isBestResponse s.row (g.rowPayoffs s) ε slack &&
    isBestResponse s.column (g.columnPayoffs s) ε slack

end Bimatrix.Game
