import Bimatrix.Scalar

/-! # Faults

Everything that can go wrong, as causes; the wording is in one place.
-/
namespace Bimatrix

inductive InvalidInput where
  | shapesDiffer (rows columns otherRows otherColumns : Nat)
  | noStrategies (rows columns : Nat)
  | notFinite (row column : Nat) (value : NonFinite)
  | raggedRow (row entries expected : Nat)
  | notANumber (path field : String)
  | partsDiffer (rows labels values : Nat)
  | basicOutOfRange (label labels : Nat)
  | repeatedLabel (label : Nat)
  | enteringOutOfRange (label labels : Nat)
  | alreadyBasic (label : Nat)
  | startOutOfRange (label strategies : Nat)
  | noStart
  deriving DecidableEq

def InvalidInput.detail : InvalidInput → String
  | shapesDiffer r c otherR otherC =>
    s!"payoff matrices must have the same size ([{r}, {c}] vs [{otherR}, {otherC}])"
  | noStrategies r c => s!"every player needs at least one strategy ([{r}, {c}])"
  | notFinite i j v => s!"payoff at ({i}, {j}) is not finite: " ++ v.text
  | raggedRow i k c => s!"row {i} has {k} entries, expected {c}"
  | notANumber path field => s!"{path}: {field} is not a number"
  | partsDiffer rows b v =>
    s!"tableau with {rows} rows needs {rows} basic labels and values, got {b} and {v}"
  | basicOutOfRange l labels => s!"basic label {l} out of range 0..{labels}"
  | repeatedLabel l => s!"label {l} appears twice in the basis"
  | enteringOutOfRange e labels => s!"entering label {e} out of range 0..{labels}"
  | alreadyBasic e => s!"entering label {e} is already basic"
  | startOutOfRange l n => s!"starting label {l} out of range 0..{n}"
  | noStart => "cannot draw a starting label without strategies"

inductive Fault where
  | invalid (cause : InvalidInput)
  | degeneratePivot (entering : Nat)
  | notConverged (iterations : Nat)
  | gamePath (path : String)
  | settingsPath (path : String)
  | malformedJson
  | malformedTable (path : String)
  /-- Vectors whose lengths do not fit, or a part of a vector that it does not have. -/
  | outOfBounds
  /-- A table or a vector of a size that cannot be stored. -/
  | tooLarge
  deriving DecidableEq

def Fault.message : Fault → String
  | invalid cause => "Invalid input: " ++ cause.detail
  | degeneratePivot e => s!"No row can leave the basis when label {e} enters."
  | notConverged k => s!"No complementary basis reached after {k} iterations."
  | gamePath path => "Invalid game path: " ++ path
  | settingsPath path => "Invalid solver configuration path: " ++ path
  | malformedJson => "Cannot parse JSON file."
  | malformedTable path => "Cannot parse payoff matrix: " ++ path
  | outOfBounds => "Index out of bounds."
  | tooLarge => "Size out of range."

end Bimatrix
