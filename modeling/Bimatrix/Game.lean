import Bimatrix.Table

/-! # Two-player games in normal form

Rows are the pure strategies of the row player, columns those of the column player.  A game has at
least one strategy for each player and finite payoffs only.
-/
namespace Bimatrix

inductive Player where
  | row
  | column
  deriving DecidableEq

def Player.other : Player → Player
  | row => column
  | column => row

structure Game (α : Type) [Scalar α] (n m : Nat) where
  row : Table α n m
  column : Table α n m
  rows_pos : 0 < n
  columns_pos : 0 < m
  row_finite : ∀ (i : Fin n) (j : Fin m), Scalar.nonFinite? (row.entry i j) = none
  column_finite : ∀ (i : Fin n) (j : Fin m), Scalar.nonFinite? (column.entry i j) = none

structure SizedGame (α : Type) [Scalar α] where
  rows : Nat
  columns : Nat
  game : Game α rows columns

namespace Table

variable {α : Type} [Scalar α] {n m : Nat}

/-- The first cell, row after row, that holds no finite number. -/
def nonFinite? (t : Table α n m) : Option InvalidInput :=
  (List.finRange n).findSome? fun i => (List.finRange m).findSome? fun j =>
    (Scalar.nonFinite? (t.entry i j)).map (.notFinite i.val j.val)

theorem nonFinite?_eq_none {t : Table α n m} (h : t.nonFinite? = none) (i : Fin n) (j : Fin m) :
    Scalar.nonFinite? (t.entry i j) = none := by
  simp only [nonFinite?, List.findSome?_eq_none_iff, List.mem_finRange, forall_const,
    Option.map_eq_none_iff] at h
  exact h i j

end Table

namespace Game

variable {α : Type} [Scalar α] {n m : Nat}

/-- The game of two payoff functions.  Their shapes are compared first, then emptiness is refused,
then values that are not finite, the row player's before the column player's. -/
def ofPayoffs? {n' m' : Nat} (row : Fin n → Fin m → α) (column : Fin n' → Fin m' → α) :
    Except Fault (Game α n m) :=
  if shape : n' = n ∧ m' = m then
    if size : 0 < n ∧ 0 < m then
      let row := Table.ofFn row
      let column := Table.ofFn fun i j => column (i.cast shape.1.symm) (j.cast shape.2.symm)
      match hr : row.nonFinite?, hc : column.nonFinite? with
      | some cause, _ => .error (.invalid cause)
      | none, some cause => .error (.invalid cause)
      | none, none =>
        .ok ⟨row, column, size.1, size.2, Table.nonFinite?_eq_none hr, Table.nonFinite?_eq_none hc⟩
    else .error (.invalid (.noStrategies n m))
  else .error (.invalid (.shapesDiffer n m n' m'))

def ofRows? (row column : List (List α)) :
    Except Fault (Game α row.length (Table.width row)) := do
  let rowTable ← Table.ofRows? row
  let columnTable ← Table.ofRows? column
  ofPayoffs? rowTable.entry columnTable.entry

/-- The number of pure strategies of player 0, whose are the rows, or of player 1. -/
def strategyCount? (_ : Game α n m) : Nat → Except Fault Nat
  | 0 => .ok n
  | 1 => .ok m
  | _ => .error .outOfBounds

def payoffs (g : Game α n m) : List α := g.row.entries ++ g.column.entries

def scale (g : Game α n m) : α := (g.payoffs.map Scalar.abs).foldl Scalar.larger 0

end Game

/-- Halves of the least payoff and of the distance from it to the greatest.  The halves keep the
distance finite where the payoffs come near the end of a floating range. -/
structure PayoffRange (α : Type) where
  low : α
  span : α

namespace PayoffRange

variable {α : Type} [Scalar α]

def ofPayoffs (us : List α) : PayoffRange α :=
  let low := (Scalar.smallest? us).getD 0 * Scalar.half
  let high := (Scalar.largest? us).getD 0 * Scalar.half
  ⟨low, high - low⟩

/-- The increasing affine map that takes the range onto `[1, 2]`, and a single point to 1. -/
def normalize (s : PayoffRange α) (u : α) : α :=
  if s.span == 0 then 1 else (u * Scalar.half - s.low) / s.span + 1

end PayoffRange

namespace Game

variable {α : Type} [Scalar α] {n m : Nat}

def range (g : Game α n m) : PayoffRange α := .ofPayoffs g.payoffs

/-- The row player's payoffs under the map common to both players. -/
def normalizedRow (g : Game α n m) : Table α n m := g.row.mapEntries g.range.normalize

def normalizedColumn (g : Game α n m) : Table α n m := g.column.mapEntries g.range.normalize

end Game

end Bimatrix
