import Bimatrix.Main
import Bimatrix.Proofs.Path.Answers
import Bimatrix.Proofs.Path.Complementarity
import Bimatrix.Proofs.Path.Drift
import Bimatrix.Proofs.Path.Exactness
import Bimatrix.Proofs.Path.Outcome
import Bimatrix.Proofs.Path.Termination
import Bimatrix.Proofs.Tableau.Runs
import Bimatrix.Proofs.Tableau.Undo
import Bimatrix.Proofs.Game.Invariance
import Bimatrix.Proofs.Tableau.Renaming
import Bimatrix.Proofs.Game.Renaming
import Bimatrix.Proofs.Path.Renaming
import Bimatrix.Proofs.Path.Support
import Bimatrix.Proofs.Regret
import Bimatrix.Proofs.Tableau.InPlace
import Bimatrix.Proofs.Batch
import Bimatrix.Proofs.Game.Rows
import Bimatrix.Proofs.Json.Layout
import Bimatrix.Proofs.Json.Value
import Bimatrix.Proofs.Decimal.Numeral
import Bimatrix.Proofs.Directory
import Bimatrix.Proofs.Json.Record
import Bimatrix.Proofs.Settings
import Bimatrix.Proofs.Binary64.Rounding
import Bimatrix.Proofs.Binary64.Value
import Bimatrix.Proofs.Binary64.Arithmetic
import Bimatrix.Proofs.Binary64.Halving
import Bimatrix.Proofs.Game.Rounding
import Bimatrix.Proofs.Decimal.Short
import Bimatrix.Proofs.Csv
import Bimatrix.Proofs.Game.Loading
import Bimatrix.Proofs.Weights
import Bimatrix.Proofs.Path.Gap
