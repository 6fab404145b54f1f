import Bimatrix.Distribution
import Bimatrix.Payoff
import Bimatrix.Pivot

/-! # Pairs of tableaus

The two sides of the complementarity problem.  The row tableau stands over the identity and the row
player's payoffs, the column tableau over the column player's payoffs and the identity; both range
over the labels of all pure strategies, rows first.
-/
namespace Bimatrix

structure Pair (α : Type) (rows rowLabels columns columnLabels : Nat) where
  row : Tableau α rows rowLabels
  column : Tableau α columns columnLabels

structure Swap where
  entering : Nat
  leaving : Nat
  position : Nat

/-- A pivot of the path, with the labels that were missing before it. -/
structure Move extends Swap where
  gap : List Nat

namespace Pair

variable {α : Type} [Scalar α] {n l m k : Nat}

/-- The labels basic in neither tableau, in increasing order. -/
def gap (p : Pair α n l m k) : List Nat :=
  (List.range l).filter fun label => !p.row.isBasic label && !p.column.isBasic label

def pivot (p : Pair α n l m k) (side : Player) (entering : Nat) :
    Except Fault (Swap × Pair α n l m k) :=
  match side with
  | .row => do
    let x ← p.row.pivot entering
    return (⟨entering, x.leaving, x.row⟩, { p with row := x.tableau })
  | .column => do
    let x ← p.column.pivot entering
    return (⟨entering, x.leaving, x.row⟩, { p with column := x.tableau })

/-- Brings the least missing label into the tableau of one player, if a label is missing. -/
def advance (p : Pair α n l m k) (side : Player) :
    Except Fault (Option (Move × Pair α n l m k)) :=
  match p.gap with
  | [] => .ok none
  | entering :: rest => do
    let (swap, next) ← p.pivot side entering
    return some (⟨swap, entering :: rest⟩, next)

/-- The row player's mix is read off the column tableau, the column player's off the row tableau. -/
def profile? (p : Pair α n l m k) : Except Fault (Profile α n (l - n)) := do
  let row ← distributionOver? p.column.values 0 n
  let column ← distributionOver? p.row.values n l
  return ⟨row, column⟩

/-- The profile, unless the labels of a tableau are too many for a vector of their values. -/
def storedProfile? (p : Pair α n l m k) : Except Fault (Profile α n (l - n)) := do
  Table.checkShape k 1
  Table.checkShape l 1
  p.profile?

end Pair

namespace Game

variable {α : Type} [Scalar α] {n m : Nat}

def unit (i : Fin n) : Vector α n := Vector.ofFn fun j => if j = i then 1 else 0

def rowTableau (g : Game α n m) : Tableau α n (n + m) :=
  let us := g.normalizedRow
  ⟨Vector.ofFn fun i => ⟨i.castAdd m, (unit i : Vector α n) ++ us.get i, 1⟩⟩

def columnTableau (g : Game α n m) : Tableau α m (n + m) :=
  let us := g.normalizedColumn
  ⟨Vector.ofFn fun j => ⟨j.natAdd n, Table.column us j ++ (unit j : Vector α m), 1⟩⟩

/-- The pair from which every path starts, where the bases are complementary.  The rows of a tableau
are longer than those of a payoff table, so a game that can be stored may have tableaus that cannot;
their shapes are not checked. -/
def tableaus (g : Game α n m) : Pair α n (n + m) m (n + m) := ⟨g.rowTableau, g.columnTableau⟩

end Game

end Bimatrix
