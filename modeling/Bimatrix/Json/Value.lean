import Bimatrix.Decimal.Numeral
import Bimatrix.Json.Token

/-! # JSON values

Values of any depth, built from tokens with an explicit stack of the containers that are open.
-/
namespace Bimatrix.Json

inductive Value where
  | null
  | bool (b : Bool)
  | number (lexeme : List Char)
  | text (units : List Nat)
  | list (items : List Value)
  | object (fields : List (List Nat × Value))

namespace Value

def ofWord? (lexeme : List Char) : Option Value :=
  if lexeme = ['n', 'u', 'l', 'l'] then some null
  else if lexeme = ['t', 'r', 'u', 'e'] then some (bool true)
  else if lexeme = ['f', 'a', 'l', 's', 'e'] then some (bool false)
  else if (Numeral.ofStrict? lexeme).isSome then some (number lexeme)
  else none

/-- A container that is open around a value.  What it holds so far is in reverse. -/
inductive Frame where
  | list (items : List Value)
  | object (fields : List (List Nat × Value)) (key : List Nat)

inductive Stage where
  | value
  /-- A value, or the end of a list without items. -/
  | firstItem
  /-- A key, or the end of an object without fields. -/
  | firstKey
  | key (fields : List (List Nat × Value))
  | colon (fields : List (List Nat × Value)) (key : List Nat)
  /-- What may come after a value. -/
  | after (v : Value)

def start (stack : List Frame) : Token → Option (Stage × List Frame)
  | .openObject => some (.firstKey, stack)
  | .openList => some (.firstItem, .list [] :: stack)
  | .text units => some (.after (text units), stack)
  | .word lexeme => (ofWord? lexeme).map fun v => (.after v, stack)
  | _ => none

def resume (v : Value) : List Frame → Token → Option (Stage × List Frame)
  | .list items :: stack, .comma => some (.value, .list (v :: items) :: stack)
  | .list items :: stack, .closeList => some (.after (list (v :: items).reverse), stack)
  | .object fields key :: stack, .comma => some (.key ((key, v) :: fields), stack)
  | .object fields key :: stack, .closeObject =>
    some (.after (object ((key, v) :: fields).reverse), stack)
  | _, _ => none

def step : Stage × List Frame → Token → Option (Stage × List Frame)
  | (.firstItem, .list _ :: stack), .closeList => some (.after (list []), stack)
  | (.firstItem, stack), t => start stack t
  | (.value, stack), t => start stack t
  | (.firstKey, stack), .closeObject => some (.after (object []), stack)
  | (.firstKey, stack), .text key => some (.colon [] key, stack)
  | (.key fields, stack), .text key => some (.colon fields key, stack)
  | (.colon fields key, stack), .colon => some (.value, .object fields key :: stack)
  | (.after v, stack), t => resume v stack t
  | _, _ => none

def ofTokens? (ts : List Token) : Option Value :=
  match ts.foldlM step (.value, []) with
  | some (.after v, []) => some v
  | _ => none

def parse? (cs : List Char) : Option Value := tokens? cs >>= ofTokens?

/-- The values of a record: an object that has each name once and perhaps other keys, or a list of
exactly these values. -/
def record? (names : List (List Char)) : Value → Option (List Value)
  | list items => if items.length = names.length then some items else none
  | object fields => do
    let named ← fields.mapM fun f => (decode? f.1).map fun key => (key, f.2)
    names.mapM fun name =>
      match named.filter fun f => f.1 == name with
      | [f] => some f.2
      | _ => none
  | _ => none

def items? : Value → Option (List Value)
  | list items => some items
  | _ => none

end Value

end Bimatrix.Json
