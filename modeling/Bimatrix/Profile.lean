import Bimatrix.Fault

/-! # Mixed profiles

One mixed strategy for each player: the row player's over rows, the column player's over columns.
-/
namespace Bimatrix

structure Profile (α : Type) (n m : Nat) where
  row : Vector α n
  column : Vector α m

namespace Profile

variable {α : Type} {n m : Nat}

def ofLists? (row column : List α) : Except Fault (Profile α n m) :=
  if h : row.length = n ∧ column.length = m then
    .ok ⟨⟨row.toArray, by simp [h.1]⟩, ⟨column.toArray, by simp [h.2]⟩⟩
  else .error .outOfBounds

/-- Profiles of one shape whose probabilities are near each other one by one. -/
def near [Scalar α] {n' m' : Nat} (s : Profile α n m) (t : Profile α n' m') : Bool :=
  nearby s.row.toList t.row.toList && nearby s.column.toList t.column.toList
where
  nearby : List α → List α → Bool
    | [], [] => true
    | x :: xs, y :: ys => Scalar.near x y && nearby xs ys
    | _, _ => false

end Profile

end Bimatrix
