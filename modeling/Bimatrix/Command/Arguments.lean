import Bimatrix.Decimal.Numeral

/-! # Command-line arguments

Options and positional arguments are collected from left to right.  The values of an argument are
settled when the next argument begins or the line ends, so the fault that is reported need not be
the leftmost.
-/
namespace Bimatrix

inductive Usage where
  | nothingGiven
  | unknownCommand
  | help
  | version
  | missingArgument
  | wrongNumberOfValues
  | tooManyValues
  | conflict
  | invalidNumber
  | missingValue
  | unknownArgument
  deriving DecidableEq

inductive Flag where
  | csv
  | config
  | label
  | seed
  | bound
  | games
  | gameSeed
  deriving DecidableEq

namespace Flag

def long : Flag → String
  | csv => "csv"
  | config => "config"
  | label => "label"
  | seed => "seed"
  | bound => "max-iterations"
  | games => "games"
  | gameSeed => "game-seed"

def short? : Flag → Option Char
  | config => some 'c'
  | label => some 'l'
  | seed => some 's'
  | games => some 'g'
  | _ => none

def arity : Flag → Nat
  | csv => 2
  | _ => 1

/-- Whether a second use adds values to the first. -/
def repeats : Flag → Bool
  | csv => true
  | _ => false

def isNumber : Flag → Bool
  | csv => false
  | config => false
  | _ => true

end Flag

inductive Slot where
  | position (i : Nat)
  | flag (f : Flag)
  deriving DecidableEq

inductive Argument where
  | number (k : UInt64)
  | path (p : String)
  deriving DecidableEq

/-- The options of a command, and for each position whether it takes a number. -/
structure Grammar where
  flags : List Flag
  positions : List Bool

namespace Argument

/-- Digits behind a plus sign that may be missing, for a number that fits in 64 bits. -/
def word64? (s : String) : Option UInt64 :=
  let cs := match s.toList with
    | '+' :: cs => cs
    | cs => cs
  match Numeral.digits cs with
  | (d :: ds, []) =>
    let k := Numeral.ofDigits (d :: ds)
    if k < UInt64.size then some (UInt64.ofNat k) else none
  | _ => none

def read (isNumber : Bool) (s : String) : Except Usage Argument :=
  if isNumber then
    match word64? s with
    | some k => .ok (number k)
    | none => .error .invalidNumber
  else if s = "" then .error .missingValue
  else .ok (path s)

end Argument

/-- The arguments read so far: those settled, those whose values may still come, and the number of
positions used. -/
structure Reading where
  settled : List (Slot × Argument) := []
  pending : Option (Slot × List String) := none
  positions : Nat := 0

namespace Reading

def values (r : Reading) (slot : Slot) : List Argument :=
  (r.settled.filter fun x => x.1 = slot).map Prod.snd

def value? (r : Reading) (slot : Slot) : Option Argument := (r.values slot).head?

def has (r : Reading) (slot : Slot) : Bool := !(r.values slot).isEmpty

/-- Gives values to a slot: first their number is checked, then a second use, then each value. -/
def put (g : Grammar) (r : Reading) (slot : Slot) (values : List String) :
    Except Usage Reading := do
  let (arity, repeats, isNumber) := match slot with
    | .position i => (1, false, g.positions.getD i false)
    | .flag f => (f.arity, f.repeats, f.isNumber)
  if values.length = 0 then throw .missingValue
  if values.length ≠ arity then throw .wrongNumberOfValues
  if r.has slot && !repeats then throw .conflict
  let read ← values.mapM (Argument.read isNumber)
  return { r with settled := r.settled ++ read.map fun a => (slot, a) }

def settle (g : Grammar) (r : Reading) : Except Usage Reading :=
  match r.pending with
  | none => .ok r
  | some (slot, values) => { r with pending := none }.put g slot values

def wantsValue (r : Reading) : Bool :=
  match r.pending with
  | some (.flag f, values) => decide (values.length < f.arity)
  | _ => false

def addValue (r : Reading) (v : String) : Reading :=
  { r with pending := r.pending.map fun x => (x.1, x.2 ++ [v]) }

/-- Begins an option, with its value when that is written in the same word. -/
def begin (g : Grammar) (r : Reading) (f : Flag) (attached : Option String) :
    Except Usage Reading := do
  let r ← r.settle g
  match attached with
  | some v => r.put g (.flag f) [v]
  | none => return { r with pending := some (.flag f, []) }

/-- A word that starts with two dashes: a name, and perhaps a value behind an equals sign. -/
def long (g : Grammar) (r : Reading) (cs : List Char) : Except Usage Reading :=
  let name := String.ofList (cs.takeWhile fun c => c != '=')
  let attached := match cs.dropWhile fun c => c != '=' with
    | _ :: v => some (String.ofList v)
    | [] => none
  if name = "help" then
    match attached with
    | some _ => .error .tooManyValues
    | none => do
      let _ ← r.settle g
      throw .help
  else
    match g.flags.find? fun f => f.long == name with
    | some f => r.begin g f attached
    | none => .error .unknownArgument

/-- A word that starts with one dash: a letter, and perhaps a value, with or without an equals sign
in front. -/
def short (g : Grammar) (r : Reading) (c : Char) (cs : List Char) : Except Usage Reading :=
  if c = 'h' then do
    let _ ← r.settle g
    throw .help
  else
    match g.flags.find? fun f => f.short? == some c with
    | some f =>
      r.begin g f <|
        match cs with
        | [] => none
        | '=' :: v => some (String.ofList v)
        | v => some (String.ofList v)
    | none => .error .unknownArgument

def position (g : Grammar) (r : Reading) (v : String) : Except Usage Reading :=
  if r.positions < g.positions.length then do
    let r ← r.settle g
    return { r with pending := some (.position r.positions, [v]), positions := r.positions + 1 }
  else .error .unknownArgument

def word (g : Grammar) (r : Reading) (v : String) : Except Usage Reading :=
  match v.toList with
  | '-' :: '-' :: cs => r.long g cs
  | '-' :: c :: cs => r.short g c cs
  | _ => if r.wantsValue then .ok (r.addValue v) else r.position g v

/-- All words; behind the word `--` every word is a positional argument. -/
def words (g : Grammar) (r : Reading) (vs : List String) : Except Usage Reading := do
  let options := vs.takeWhile fun v => v != "--"
  let operands := (vs.dropWhile fun v => v != "--").drop 1
  let r ← options.foldlM (word g) r
  let r ← operands.foldlM (position g) r
  r.settle g

end Reading

end Bimatrix
