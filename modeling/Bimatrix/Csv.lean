/-! # Comma-separated records

Bytes become records of fields.  A field that starts with a quote may hold commas and line ends, and
two quotes in it stand for one; a quote elsewhere is literal.  Empty lines are no records.
-/
namespace Bimatrix.Csv

abbrev Field := List UInt8
abbrev Record := List Field

inductive Place where
  | recordStart
  | fieldStart
  | plain
  | quoted
  /-- After a quote in a quoted field. -/
  | closed
  deriving DecidableEq

/-- The part read so far, all in reverse. -/
structure Scanner where
  place : Place := .recordStart
  field : Field := []
  fields : Record := []
  records : List Record := []

def comma : UInt8 := 44
def quote : UInt8 := 34
def lineFeed : UInt8 := 10
def carriageReturn : UInt8 := 13

namespace Scanner

def endField (s : Scanner) : Scanner :=
  { s with place := .fieldStart, field := [], fields := s.field.reverse :: s.fields }

def endRecord (s : Scanner) : Scanner :=
  { place := .recordStart
    records := (s.field.reverse :: s.fields).reverse :: s.records }

def push (s : Scanner) (place : Place) (b : UInt8) : Scanner :=
  { s with place := place, field := b :: s.field }

def bare (s : Scanner) (b : UInt8) : Scanner :=
  if b = comma then s.endField
  else if b = lineFeed ∨ b = carriageReturn then s.endRecord
  else s.push .plain b

def step (s : Scanner) (b : UInt8) : Scanner :=
  match s.place with
  | .recordStart =>
    if b = lineFeed ∨ b = carriageReturn then s
    else if b = quote then { s with place := .quoted }
    else s.bare b
  | .fieldStart => if b = quote then { s with place := .quoted } else s.bare b
  | .plain => s.bare b
  | .quoted => if b = quote then { s with place := .closed } else s.push .quoted b
  | .closed => if b = quote then s.push .quoted b else s.bare b

/-- The end of the bytes ends a record that has begun. -/
def finish (s : Scanner) : List Record :=
  if s.place = .recordStart then s.records.reverse else s.endRecord.records.reverse

end Scanner

/-- The bytes without a byte order mark in front. -/
def body : List UInt8 → List UInt8
  | 0xEF :: 0xBB :: 0xBF :: bs => bs
  | bs => bs

def records (bs : List UInt8) : List Record := ((body bs).foldl Scanner.step {}).finish

def text? (f : Field) : Option String := String.fromUTF8? ⟨f.toArray⟩

/-- The characters with the property White_Space. -/
def isBlank (c : Char) : Bool :=
  let n := c.toNat
  (9 ≤ n && n ≤ 13) || n == 0x20 || n == 0x85 || n == 0xA0 || n == 0x1680 ||
    (0x2000 ≤ n && n ≤ 0x200A) || n == 0x2028 || n == 0x2029 || n == 0x202F || n == 0x205F ||
    n == 0x3000

def trim (cs : List Char) : List Char :=
  ((cs.dropWhile isBlank).reverse.dropWhile isBlank).reverse

end Bimatrix.Csv
