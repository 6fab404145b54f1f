/-! # Tokens of JSON text

Text becomes marks, strings and words; blanks between them are dropped.  A string is kept as the
values of its characters and escapes, for an escape may name half of a surrogate pair.
-/
namespace Bimatrix.Json

inductive Token where
  | openObject
  | closeObject
  | openList
  | closeList
  | comma
  | colon
  | text (units : List Nat)
  /-- A longest run of other characters. -/
  | word (lexeme : List Char)
  deriving DecidableEq

def isBlank (c : Char) : Bool := c == ' ' || c == '\t' || c == '\n' || c == '\r'

def mark? (c : Char) : Option Token :=
  if c = '{' then some .openObject
  else if c = '}' then some .closeObject
  else if c = '[' then some .openList
  else if c = ']' then some .closeList
  else if c = ',' then some .comma
  else if c = ':' then some .colon
  else none

/-- Where the scanner stands.  Characters and units are kept in reverse. -/
inductive Place where
  | outside (word : List Char)
  | inside (units : List Nat)
  | escape (units : List Nat)
  /-- In an escape by number, with some digits to come after the next. -/
  | code (units : List Nat) (value left : Nat)

def hexDigit? (c : Char) : Option Nat :=
  if '0' ≤ c ∧ c ≤ '9' then some (c.toNat - '0'.toNat)
  else if 'a' ≤ c ∧ c ≤ 'f' then some (c.toNat - 'a'.toNat + 10)
  else if 'A' ≤ c ∧ c ≤ 'F' then some (c.toNat - 'A'.toNat + 10)
  else none

def escaped? (c : Char) : Option Nat :=
  if c = '"' ∨ c = '\\' ∨ c = '/' then some c.toNat
  else if c = 'b' then some 8
  else if c = 'f' then some 12
  else if c = 'n' then some 10
  else if c = 'r' then some 13
  else if c = 't' then some 9
  else none

def flush (word : List Char) (out : List Token) : List Token :=
  if word.isEmpty then out else .word word.reverse :: out

def scan : Place × List Token → Char → Option (Place × List Token)
  | (.outside word, out), c =>
    if isBlank c then some (.outside [], flush word out)
    else if c = '"' then some (.inside [], flush word out)
    else
      match mark? c with
      | some t => some (.outside [], t :: flush word out)
      | none => some (.outside (c :: word), out)
  | (.inside units, out), c =>
    if c = '"' then some (.outside [], .text units.reverse :: out)
    else if c = '\\' then some (.escape units, out)
    else if c.toNat < 32 then none
    else some (.inside (c.toNat :: units), out)
  | (.escape units, out), c =>
    if c = 'u' then some (.code units 0 3, out)
    else (escaped? c).map fun u => (.inside (u :: units), out)
  | (.code units value left, out), c =>
    (hexDigit? c).map fun d =>
      match left with
      | 0 => (.inside ((16 * value + d) :: units), out)
      | left + 1 => (.code units (16 * value + d) left, out)

def tokens? (cs : List Char) : Option (List Token) :=
  match cs.foldlM scan (.outside [], []) with
  | some (.outside word, out) => some (flush word out).reverse
  | _ => none

/-- The characters that the units of a string stand for, unless half a surrogate pair stands
alone. -/
def decode? : List Nat → Option (List Char)
  | [] => some []
  | [u] => if 0xD800 ≤ u ∧ u < 0xE000 then none else some [Char.ofNat u]
  | u :: v :: us =>
    if 0xD800 ≤ u ∧ u < 0xDC00 then
      if 0xDC00 ≤ v ∧ v < 0xE000 then
        (decode? us).map (Char.ofNat (0x10000 + (u - 0xD800) * 0x400 + (v - 0xDC00)) :: ·)
      else none
    else if 0xDC00 ≤ u ∧ u < 0xE000 then none
    else (decode? (v :: us)).map (Char.ofNat u :: ·)

end Bimatrix.Json
