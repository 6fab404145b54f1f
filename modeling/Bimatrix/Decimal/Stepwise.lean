import Bimatrix.Decimal.Numeral

/-! # Numerals read through a 64-bit significand

As many digits as fit in 64 bits are kept, and the rounded significand is multiplied or divided by
a power of ten.  The result can differ in its last bits from the nearest number.
-/
namespace Bimatrix.Numeral

/-- The digits taken into a significand while it fits in 64 bits, and the rest. -/
def absorb (s : Nat) : List Nat → Nat × List Nat
  | [] => (s, [])
  | d :: ds => if 10 * s + d < UInt64.size then absorb (10 * s + d) ds else (s, d :: ds)

/-- The significand and the power of ten that the digits stand for: a digit left out before the
point raises it, a digit taken in after the point lowers it. -/
def kept (x : Numeral) : Nat × Int :=
  let (s, dropped) := absorb 0 x.whole
  let (s, rest) := absorb s x.fraction
  (s, (dropped.length : Int) - ((x.fraction.length : Int) - rest.length))

def powerOfTen (k : Nat) : Float := Float.ofScientific 1 false k

/-- The greatest power of ten that is a finite number. -/
def topPower : Nat := 308

/-- Division by a power of ten, by parts where the power is no finite number. -/
def lower (f : Float) (k : Nat) : Float :=
  if k ≤ topPower then f / powerOfTen k
  else if f == 0 then f
  else lower (f / powerOfTen topPower) (k - topPower)
termination_by k
decreasing_by simp only [topPower] at *; omega

def raise? (f : Float) (k : Nat) : Option Float :=
  if k ≤ topPower then
    let y := f * powerOfTen k
    if y.isFinite then some y else none
  else if f == 0 then some f
  else none

def exponentLimit : Nat := 2147483647

def stepwiseMagnitude? (x : Numeral) : Option Float :=
  let (s, k) := x.kept
  if exponentLimit < x.exponent.natAbs then
    if s ≠ 0 ∧ 0 < x.exponent then none else some 0
  else
    let e := k + x.exponent
    if e < 0 then some (lower (Float.ofNat s) e.natAbs) else raise? (Float.ofNat s) e.toNat

/-- The value, unless its magnitude is too large. -/
def stepwise? (x : Numeral) : Option Float :=
  x.stepwiseMagnitude?.map fun v => if x.negative then -v else v

end Bimatrix.Numeral
