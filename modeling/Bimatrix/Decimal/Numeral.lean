/-! # Decimal numerals

The digits of a number written in decimal, and the two grammars in which it may be written.
-/
namespace Bimatrix

structure Numeral where
  negative : Bool
  whole : List Nat
  fraction : List Nat
  /-- The power of ten written behind the digits, zero when none is written. -/
  exponent : Int
  deriving DecidableEq

namespace Numeral

def digitValue (c : Char) : Nat := c.toNat - '0'.toNat

def digits (cs : List Char) : List Nat × List Char :=
  ((cs.takeWhile Char.isDigit).map digitValue, cs.dropWhile Char.isDigit)

def ofDigits (ds : List Nat) : Nat := ds.foldl (fun v d => 10 * v + d) 0

def sign : List Char → Bool × List Char
  | '+' :: cs => (false, cs)
  | '-' :: cs => (true, cs)
  | cs => (false, cs)

/-- What may follow the digits: nothing, or a letter, a sign that may be missing, and digits. -/
def exponent? : List Char → Option Int
  | [] => some 0
  | c :: cs =>
    if c = 'e' ∨ c = 'E' then
      let (negative, rest) := sign cs
      match digits rest with
      | (d :: ds, []) =>
        let k : Int := ofDigits (d :: ds)
        some (if negative then -k else k)
      | _ => none
    else none

def fraction? : List Char → Option (List Nat) × List Char
  | '.' :: cs => (some (digits cs).1, (digits cs).2)
  | cs => (none, cs)

def unsigned? (accept : List Nat → Option (List Nat) → Bool) (negative : Bool) (cs : List Char) :
    Option Numeral :=
  let (whole, cs) := digits cs
  let (fraction, cs) := fraction? cs
  if accept whole fraction then
    (exponent? cs).map fun e => ⟨negative, whole, fraction.getD [], e⟩
  else none

/-- No plus sign, no needless zero in front, and digits on both sides of a point. -/
def ofStrict? : List Char → Option Numeral
  | '-' :: cs => unsigned? strict true cs
  | cs => unsigned? strict false cs
where
  strict (whole : List Nat) (fraction : Option (List Nat)) : Bool :=
    (match whole with
      | [] => false
      | [_] => true
      | d :: _ => d != 0) && fraction != some []

/-- Either sign, and a digit on at least one side of the point. -/
def ofLoose? (cs : List Char) : Option Numeral :=
  unsigned? loose (sign cs).1 (sign cs).2
where
  loose (whole : List Nat) (fraction : Option (List Nat)) : Bool :=
    !whole.isEmpty || !(fraction.getD []).isEmpty

/-- All digits, without the point. -/
def significand (x : Numeral) : Nat := ofDigits (x.whole ++ x.fraction)

/-- The power of ten that the last digit counts. -/
def scale (x : Numeral) : Int := x.exponent - x.fraction.length

end Numeral

end Bimatrix
