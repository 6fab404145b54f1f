import Bimatrix.Csv
import Bimatrix.Decimal.Nearest
import Bimatrix.Decimal.Stepwise
import Bimatrix.Directory
import Bimatrix.Game
import Bimatrix.Json.Value
import Bimatrix.Solver

/-! # Documents

Games and solver settings as the content of files.  A content is missing when nothing can be read
at its path.
-/
namespace Bimatrix

namespace Json.Value

def float? : Value → Option Float
  | number lexeme => (Numeral.ofStrict? lexeme).bind Numeral.stepwise?
  | _ => none

def word64? : Value → Option UInt64
  | number lexeme =>
    match Numeral.digits lexeme with
    | (ds, []) =>
      let k := Numeral.ofDigits ds
      if k < UInt64.size then some (UInt64.ofNat k) else none
    | _ => none
  | _ => none

def payoffs? (v : Value) : Option (List (List Float)) := do
  let rows ← v.items?
  rows.mapM fun row => do
    let us ← row.items?
    us.mapM float?

/-- An object whose one key names the kind of start. -/
def start? : Value → Option Start
  | object [(key, v)] => do
    let name ← decode? key
    let k ← v.word64?
    if name = "Label".toList then some (.label k)
    else if name = "Seed".toList then some (.seed k)
    else none
  | _ => none

def game? (v : Value) : Option (List (List Float) × List (List Float)) := do
  match ← v.record? ["player1".toList, "player2".toList] with
  | [row, column] => return (← row.payoffs?, ← column.payoffs?)
  | _ => none

def solver? (v : Value) : Option Solver := do
  match ← v.record? ["warm_start".toList, "max_iterations".toList] with
  | [start, bound] => return ⟨← start.start?, ← bound.word64?⟩
  | _ => none

end Json.Value

namespace Game

def ofSizedRows? (row column : List (List Float)) : Except Fault (SizedGame Float) :=
  (ofRows? row column).map fun g => ⟨_, _, g⟩

def ofJson? (path : String) (content : Option ByteArray) : Except Fault (SizedGame Float) :=
  match content.bind String.fromUTF8? with
  | none => .error (.gamePath path)
  | some text =>
    match (Json.Value.parse? text.toList).bind Json.Value.game? with
    | none => .error .malformedJson
    | some (row, column) => ofSizedRows? row column

/-- The numbers of a record, if it is text with the right number of fields. -/
def recordNumbers (path : String) (width : Nat) (r : Csv.Record) : Except Fault (List Float) :=
  match r.mapM Csv.text? with
  | none => .error (.malformedTable path)
  | some fields =>
    if fields.length = width then
      fields.mapM fun field =>
        let cs := Csv.trim field.toList
        match Numeral.readFloat? cs with
        | some x => .ok x
        | none => .error (.invalid (.notANumber path (String.ofList cs)))
    else .error (.malformedTable path)

/-- Rows of numbers from the comma-separated records at a path.  The first record sets the number of
fields, and the first record at fault decides the fault. -/
def csvRows? (path : String) (content : Option ByteArray) : Except Fault (List (List Float)) :=
  match content with
  | none => .error (.malformedTable path)
  | some bytes =>
    let records := Csv.records bytes.toList
    records.mapM (recordNumbers path (records.headD []).length)

def ofCsv? (rowPath : String) (rowContent : Option ByteArray) (columnPath : String)
    (columnContent : Option ByteArray) : Except Fault (SizedGame Float) := do
  let row ← csvRows? rowPath rowContent
  let rowTable ← Table.ofRows? row
  let column ← csvRows? columnPath columnContent
  let columnTable ← Table.ofRows? column
  return ⟨_, _, ← ofPayoffs? rowTable.entry columnTable.entry⟩

end Game

namespace Solver

def ofJson? (path : String) (content : Option ByteArray) : Except Fault Solver :=
  match content.bind String.fromUTF8? with
  | none => .error (.settingsPath path)
  | some text =>
    match (Json.Value.parse? text.toList).bind Json.Value.solver? with
    | none => .error .malformedJson
    | some s => .ok s

def text (s : Solver) : String :=
  let (name, k) := match s.start with
    | .label k => ("Label", k)
    | .seed k => ("Seed", k)
  "\x7b\n  \"warm_start\": \x7b\n    \"" ++ name ++ "\": " ++ toString k.toNat ++
    "\n  \x7d,\n  \"max_iterations\": " ++ toString s.bound.toNat ++ "\n\x7d"

def save? (s : Solver) (d : Directory) (path : String) : Except Fault Directory :=
  match d.write? path s.text.toUTF8 with
  | some d => .ok d
  | none => .error (.settingsPath path)

end Solver

end Bimatrix
