/-! # Scalars

The arithmetic in which games are solved.  Every algorithm of the library is written once over the
class `Scalar`; binary64 is the instance that runs, the rationals are the exact one.
-/
namespace Bimatrix

inductive NonFinite where
  | nan
  | infinity
  | negInfinity
  deriving DecidableEq

def NonFinite.text : NonFinite → String
  | nan => "NaN"
  | infinity => "inf"
  | negInfinity => "-inf"

/-- Arithmetic with decidable comparisons and the thresholds of the library. -/
class Scalar (α : Type) extends
    Zero α, One α, Add α, Sub α, Mul α, Div α, Neg α, LE α, LT α, BEq α where
  decidableLE : DecidableLE α
  decidableLT : DecidableLT α
  ofNat : Nat → α
  half : α
  /-- Entries of a pivot column at or below this value do not bound the ratio test. -/
  cutoff : α
  /-- How far two probabilities may differ and still count as equal. -/
  tolerance : α
  /-- The maximum over no comparable value. -/
  bottom : α
  /-- What a value is when it is no finite number. -/
  nonFinite? : α → Option NonFinite

attribute [reducible, instance] Scalar.decidableLE Scalar.decidableLT

instance : Scalar Float where
  zero := 0
  one := 1
  add := Float.add
  sub := Float.sub
  mul := Float.mul
  div := Float.div
  neg := Float.neg
  le a b := a ≤ b
  lt a b := a < b
  beq := Float.beq
  decidableLE a b := inferInstanceAs (Decidable (a ≤ b))
  decidableLT a b := inferInstanceAs (Decidable (a < b))
  ofNat := Float.ofNat
  half := 0.5
  cutoff := 1e-12
  tolerance := 1e-9
  bottom := Float.ofBits 0xFFF0000000000000
  nonFinite? x :=
    if x.isFinite then none
    else if x < 0 then some .negInfinity
    else if 0 < x then some .infinity
    else some .nan

instance : Scalar Rat where
  zero := 0
  one := 1
  add := Rat.add
  sub := Rat.sub
  mul := Rat.mul
  div := Rat.div
  neg := Rat.neg
  le a b := a ≤ b
  lt a b := a < b
  beq a b := decide (a = b)
  decidableLE a b := inferInstanceAs (Decidable (a ≤ b))
  decidableLT a b := inferInstanceAs (Decidable (a < b))
  ofNat n := mkRat n 1
  half := mkRat 1 2
  cutoff := mkRat 1 1000000000000
  tolerance := mkRat 1 1000000000
  bottom := 0
  nonFinite? _ := none

namespace Scalar

variable {α : Type} [Scalar α]

def abs (x : α) : α := if x < 0 then -x else x

def larger (x y : α) : α := if x < y then y else x

def smaller (x y : α) : α := if y < x then y else x

/-- A fold of the values that equal themselves; the others compare with nothing and are skipped. -/
def combine? (choose : α → α → α) (best : Option α) (x : α) : Option α :=
  match best with
  | none => if x == x then some x else none
  | some b => some (choose b x)

def largest? (xs : List α) : Option α := xs.foldl (combine? larger) none

def smallest? (xs : List α) : Option α := xs.foldl (combine? smaller) none

def largest (xs : List α) : α := (largest? xs).getD bottom

/-- No further apart than the tolerance; an infinity is not near itself. -/
def near (x y : α) : Bool := decide (abs (x - y) ≤ tolerance)

end Scalar

end Bimatrix
