import Bimatrix.Decimal.Numeral

/-! # The nearest binary64 number

Numerals read with a single rounding, and the words for values that are no number.
-/
namespace Bimatrix.Numeral

/-- Beyond these powers of ten every magnitude is infinite or zero. -/
def reach : Nat := 400

def magnitude (x : Numeral) : Float :=
  let m := x.significand
  let e := x.scale
  if m = 0 then 0
  else if (reach : Int) < e then 1 / 0
  else if e + (x.whole.length + x.fraction.length) < -(reach : Int) then 0
  else if e < 0 then Float.ofScientific m true e.natAbs
  else Float.ofScientific m false e.toNat

/-- Rounded to nearest, halves to even; too large a magnitude is infinite. -/
def nearest (x : Numeral) : Float := if x.negative then -x.magnitude else x.magnitude

def small (c : Char) : Char :=
  if 'A' ≤ c ∧ c ≤ 'Z' then Char.ofNat (c.toNat + 32) else c

def word? (cs : List Char) : Option Float :=
  let w := String.ofList (cs.map small)
  if w = "inf" ∨ w = "infinity" then some (1 / 0)
  else if w = "nan" then some (0 / 0)
  else none

/-- A number, or one of the words behind a sign that may be missing. -/
def readFloat? (cs : List Char) : Option Float :=
  match ofLoose? cs with
  | some x => some x.nearest
  | none => (word? (sign cs).2).map fun v => if (sign cs).1 then -v else v

end Bimatrix.Numeral
