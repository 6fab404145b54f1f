import Bimatrix.Scalar

/-! # Sums in a fixed order

Floating addition is not associative, so the order of every sum is part of its result.  Long sums
run in eight lanes that are added pairwise at the end.
-/
namespace Bimatrix.Summation

variable {α : Type} [Scalar α] {n : Nat}

/-- The sum of the terms at `k`, `k + 8`, … within the whole blocks of eight. -/
def lane (x : Vector α n) (k : Fin 8) : α :=
  (List.finRange (n / 8)).foldl (fun s q => s + x[8 * q.val + k.val]) 0

/-- The whole blocks of eight, the lanes added in pairs four apart. -/
def blocks (x : Vector α n) : α :=
  0 + (lane x 0 + lane x 4) + (lane x 1 + lane x 5) + (lane x 2 + lane x 6) + (lane x 3 + lane x 7)

/-- The sum of all terms: the blocks of eight by lanes, then the rest one by one. -/
def total (x : Vector α n) : α :=
  (List.finRange (n % 8)).foldl (fun s i => s + x[8 * (n / 8) + i.val]) (blocks x)

def dot (x y : Vector α n) : α := total (Vector.zipWith (fun a b => a * b) x y)

def sequentialDot (x y : Vector α n) : α :=
  (List.finRange n).foldl (fun s i => s + x.get i * y.get i) 0

end Bimatrix.Summation
