import Bimatrix.Scalar

/-! # Decimal text of binary64 numbers

A finite number is an exact fraction; it is written with a fixed number of digits, rounded to
nearest with halves to even.
-/
namespace Bimatrix.Decimal

structure Exact where
  negative : Bool
  numerator : Nat
  denominator : Nat

/-- The fields of the format: a sign, eleven bits of exponent, 52 bits of fraction. -/
def Exact.ofFloat (x : Float) : Exact :=
  let bits := x.toBits.toNat
  let exponent := (bits >>> 52) % 2048
  let fraction := bits % 4503599627370496
  let significand := if exponent = 0 then fraction else 4503599627370496 + fraction
  let power := max exponent 1
  ⟨bits >>> 63 = 1, significand <<< (power - 1075), 1 <<< (1075 - power)⟩

/-- The quotient rounded to nearest, a half to the even neighbour. -/
def roundDiv (num den : Nat) : Nat :=
  let q := num / den
  let r := num % den
  if 2 * r < den then q
  else if den < 2 * r then q + 1
  else if q % 2 = 0 then q
  else q + 1

def padded (width n : Nat) : List Char :=
  let ds := Nat.toDigits 10 n
  List.replicate (width - ds.length) '0' ++ ds

def pointed (places n : Nat) : List Char :=
  let ds := padded (places + 1) n
  ds.take (ds.length - places) ++ '.' :: ds.drop (ds.length - places)

def signed (negative : Bool) (cs : List Char) : String :=
  String.ofList (if negative then '-' :: cs else cs)

def fixed (places : Nat) (x : Float) : String :=
  match Scalar.nonFinite? x with
  | some v => v.text
  | none =>
    let e := Exact.ofFloat x
    signed e.negative (pointed places (roundDiv (e.numerator * Nat.pow 10 places) e.denominator))

/-- The least power of ten that brings a fraction below one up to one. -/
def shortfall (num den : Nat) : Nat :=
  ((List.range 325).find? fun k => decide (den ≤ num * Nat.pow 10 k)).getD 0

/-- One digit, a point and a number of further places, and the power of ten. -/
def scientific (places : Nat) (x : Float) : String :=
  match Scalar.nonFinite? x with
  | some v => v.text
  | none =>
    let e := Exact.ofFloat x
    if e.numerator = 0 then signed e.negative (pointed places 0 ++ ['e', '0'])
    else
      let below := shortfall e.numerator e.denominator
      let above := (Nat.toDigits 10 (e.numerator / e.denominator)).length - 1
      let n := roundDiv (e.numerator * Nat.pow 10 (below + places))
        (e.denominator * Nat.pow 10 above)
      let carried := n = Nat.pow 10 (places + 1)
      let power : Int := above - below + (if carried then 1 else 0)
      let digits := if carried then Nat.pow 10 places else n
      signed e.negative (pointed places digits ++ 'e' :: (toString power).toList)

end Bimatrix.Decimal
