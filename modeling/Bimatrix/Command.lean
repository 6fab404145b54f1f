import Bimatrix.Command.Arguments

/-! # Commands

What the program can be asked to do.
-/
namespace Bimatrix

inductive Source where
  | json (path : String)
  | csv (row column : String)
  deriving DecidableEq

/-- The settings given on the command line; they go before those of the settings file. -/
structure Overrides where
  config : Option String
  label : Option UInt64
  seed : Option UInt64
  bound : Option UInt64
  deriving DecidableEq

inductive Command where
  | solve (source : Source) (overrides : Overrides)
  | random (rows columns games gameSeed : UInt64) (overrides : Overrides)
  deriving DecidableEq

namespace Reading

def number? (r : Reading) (slot : Slot) : Option UInt64 :=
  match r.value? slot with
  | some (.number k) => some k
  | _ => none

def path? (r : Reading) (slot : Slot) : Option String :=
  match r.value? slot with
  | some (.path p) => some p
  | _ => none

def overrides (r : Reading) : Overrides :=
  { config := r.path? (.flag .config)
    label := r.number? (.flag .label)
    seed := r.number? (.flag .seed)
    bound := r.number? (.flag .bound) }

/-- A label and a seed exclude each other. -/
def startConflict (r : Reading) : Bool := r.has (.flag .label) && r.has (.flag .seed)

end Reading

namespace Command

def solveGrammar : Grammar where
  flags := [.csv, .config, .label, .seed, .bound]
  positions := [false]

def randomGrammar : Grammar where
  flags := [.games, .gameSeed, .config, .label, .seed, .bound]
  positions := [true, true]

/-- A game file and a pair of tables exclude each other, and one of them is needed. -/
def ofSolve? (words : List String) : Except Usage Command := do
  let r ← Reading.words solveGrammar {} words
  if r.has (.position 0) && r.has (.flag .csv) || r.startConflict then throw .conflict
  match r.values (.flag .csv), r.path? (.position 0) with
  | .path row :: .path column :: _, _ => return .solve (.csv row column) r.overrides
  | _, some path => return .solve (.json path) r.overrides
  | _, none => throw .missingArgument

def ofRandom? (words : List String) : Except Usage Command := do
  let r ← Reading.words randomGrammar {} words
  if r.startConflict then throw .conflict
  match r.number? (.position 0), r.number? (.position 1) with
  | some n, some m =>
    return .random n m ((r.number? (.flag .games)).getD 100) ((r.number? (.flag .gameSeed)).getD 0)
      r.overrides
  | _, _ => throw .missingArgument

/-- The names that may follow `help`: one command, or `help` itself. -/
def helpFor (words : List String) : Usage :=
  match words with
  | [] => .help
  | [name] => if name = "solve" ∨ name = "random" ∨ name = "help" then .help else .unknownCommand
  | _ => .unknownCommand

def refuse (v : String) : Usage :=
  match v.toList with
  | '-' :: '-' :: cs =>
    let name := String.ofList (cs.takeWhile fun c => c != '=')
    if name = "help" ∨ name = "version" then
      if cs.contains '=' then .tooManyValues
      else if name = "help" then .help
      else .version
    else .unknownArgument
  | '-' :: c :: _ =>
    if c = 'h' then .help else if c = 'V' then .version else .unknownArgument
  | _ => .unknownCommand

def ofWords? : List String → Except Usage Command
  | [] => .error .nothingGiven
  | "solve" :: words => ofSolve? words
  | "random" :: words => ofRandom? words
  | "help" :: words => .error (helpFor words)
  | ["--"] => .error .nothingGiven
  | "--" :: v :: _ =>
    .error (if v = "solve" ∨ v = "random" ∨ v = "help" then .unknownArgument else .unknownCommand)
  | v :: _ => .error (refuse v)

end Command

end Bimatrix
