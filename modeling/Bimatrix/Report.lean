import Bimatrix.Batch
import Bimatrix.Command
import Bimatrix.Decimal.Format
import Bimatrix.Document

/-! # Reports

The lines that a command writes once it has succeeded.
-/
namespace Bimatrix

abbrev Files := String → Option ByteArray

namespace Report

def amount (x : Float) : String := Decimal.fixed 6 x

def regret (x : Float) : String := Decimal.scientific 3 x

def mix {n : Nat} (v : Vector Float n) : String :=
  String.intercalate " " (v.toList.map amount)

def players (write : Float → String) (row column : Float) : String :=
  "Player 1: " ++ write row ++ ", Player 2: " ++ write column

def equilibrium {n m : Nat} (g : Game Float n m) (e : Equilibrium Float n m) : List String :=
  let s := e.profile
  [s!"Starting label: {e.start} ({e.pivots} pivots)",
    "Equilibrium strategies",
    "Player 1: " ++ mix s.row,
    "Player 2: " ++ mix s.column,
    "Equilibrium payoff",
    players amount (g.rowPayoff s) (g.columnPayoff s),
    "Regret",
    players regret (g.rowRegret s) (g.columnRegret s)]

/-- The mean length of the paths that were followed to their end. -/
def meanPivots (b : Batch) : Float := Float.ofNat b.pivots / Float.ofNat b.solved

def batch (n m games : Nat) (b : Batch) : List String :=
  [s!"Games: {games} ({n}x{m})",
    s!"Verified equilibria: {b.verified}",
    s!"Not an equilibrium: {b.refuted}",
    s!"Degenerate pivots: {b.degenerate}",
    s!"Not converged: {b.unfinished}"] ++
  if 0 < b.solved then ["Average pivots: " ++ Decimal.fixed 2 (meanPivots b)] else []

end Report

namespace Source

def game? (files : Files) : Source → Except Fault (SizedGame Float)
  | json path => Game.ofJson? path (files path)
  | csv row column => Game.ofCsv? row (files row) column (files column)

end Source

namespace Overrides

/-- The settings of the file, or the default ones, with the bound and the start that are given.  A
seed goes before a label. -/
def solver? (files : Files) (o : Overrides) : Except Fault Solver := do
  let base ← match o.config with
    | some path => Solver.ofJson? path (files path)
    | none => .ok {}
  let bound := o.bound.getD base.bound
  let start := match o.seed, o.label with
    | some s, _ => .seed s
    | none, some k => .label k
    | none, none => base.start
  return ⟨start, bound⟩

end Overrides

namespace Command

def paths : Command → List String
  | solve (.json path) o => path :: o.config.toList
  | solve (.csv row column) o => row :: column :: o.config.toList
  | random _ _ _ _ o => o.config.toList

def run (files : Files) : Command → Except Fault (List String)
  | solve source o => do
    let ⟨_, _, g⟩ ← source.game? files
    let s ← o.solver? files
    return Report.equilibrium g (← s.solve g)
  | random n m games gameSeed o => do
    let s ← o.solver? files
    let payoff := Batch.payoff (Random.keyOfSeed gameSeed)
    let b ← Batch.run s payoff n.toNat m.toNat games.toNat
    return Report.batch n.toNat m.toNat games.toNat b

end Command

end Bimatrix
