import Bimatrix.Pair

/-! # Complementary paths

From a pair with a missing label the players pivot in turn until no label is missing.
-/
namespace Bimatrix

inductive Ending where
  /-- No label is missing. -/
  | complete
  /-- The next pivot fails. -/
  | stuck (fault : Fault)
  /-- The pair has been looked at as often as was allowed. -/
  | exhausted
  deriving DecidableEq

/-- A stretch of the path: its moves, the latest first, the pair they lead to, and how it ends. -/
structure Walk (α : Type) (n l m k : Nat) where
  moves : List Move
  last : Pair α n l m k
  ending : Ending

namespace Pair

variable {α : Type} [Scalar α] {n l m k : Nat}

/-- Follows the path after the given moves, the players pivoting in turn.  The pair is looked at no
more than `bound` times, and a gap is seen to be closed only by looking. -/
def walk (p : Pair α n l m k) (side : Player) (moves : List Move) : Nat → Walk α n l m k
  | 0 => ⟨moves, p, .exhausted⟩
  | bound + 1 =>
    match p.advance side with
    | .error fault => ⟨moves, p, .stuck fault⟩
    | .ok none => ⟨moves, p, .complete⟩
    | .ok (some (move, next)) => next.walk side.other (move :: moves) bound

end Pair

end Bimatrix
