import Bimatrix.Fault
import Bimatrix.Summation

/-! # Distributions from weights

A mixed strategy read off the values of a range of labels.
-/
namespace Bimatrix

variable {α : Type} [Scalar α] {n : Nat}

/-- The weights divided by their total; the uniform distribution when the total is zero. -/
def distribution (weights : Vector α n) : Vector α n :=
  let total := Summation.total weights
  if total == 0 then Vector.replicate n (1 / Scalar.ofNat n) else weights.map fun w => w / total

/-- The distribution over the labels `start ≤ l < stop`, empty when `stop` lies before `start`. -/
def distributionOver? (values : Vector α n) (start stop : Nat) :
    Except Fault (Vector α (stop - start)) :=
  if h : start ≤ n ∧ stop ≤ n then
    .ok (distribution (Vector.ofFn fun i => values[start + i.val]))
  else .error .outOfBounds

/-- A position given as a word: as a signed word, where one below zero counts from the end. -/
def position (n : Nat) (k : UInt64) : Nat :=
  if k < 0x8000000000000000 then k.toNat else (UInt64.ofNat n + k).toNat

def distributionAt? (values : Vector α n) (start stop : UInt64) :
    Except Fault (Vector α (position n stop - position n start)) :=
  distributionOver? values (position n start) (position n stop)

end Bimatrix
