import Bimatrix.Tableau

/-! # Pivots

A label enters the basis and the minimum ratio test chooses the row whose label leaves.
-/
namespace Bimatrix

variable {α : Type} [Scalar α] {size labels : Nat}

namespace Row

def normalize (row : Row α labels) (entering : Fin labels) : Row α labels :=
  let p := row.coefficients.get entering
  { label := entering
    coefficients := (row.coefficients.map fun a => a / p).set entering.val 1 entering.isLt
    value := row.value / p }

/-- The ratio test bounds a row with a positive entry at zero; a value below is raised to it. -/
def clamp (entry value : α) : α := if 0 < entry ∧ value < 0 then 0 else value

def eliminate (row pivot : Row α labels) (entering : Fin labels) : Row α labels :=
  let e := row.coefficients.get entering
  if e == 0 then row
  else
    { row with
      coefficients :=
        (Vector.zipWith (fun a r => a + -e * r) row.coefficients pivot.coefficients).set
          entering.val 0 entering.isLt
      value := clamp e (row.value - e * pivot.value) }

end Row

structure Exchange (α : Type) (size labels : Nat) where
  row : Fin size
  leaving : Fin labels
  tableau : Tableau α size labels

namespace Tableau

/-- One row of the ratio test.  Rows whose entry is at most the cutoff are passed over, and a tie
stays with the earlier row. -/
def compareRatio (t : Tableau α size labels) (entering : Fin labels)
    (best : Option (Fin size × α)) (i : Fin size) : Option (Fin size × α) :=
  let row := t.rows.get i
  let entry := row.coefficients.get entering
  if entry ≤ Scalar.cutoff then best
  else
    let ratio := row.value / entry
    match best with
    | none => some (i, ratio)
    | some (_, least) => if least ≤ ratio then best else some (i, ratio)

/-- The row of least ratio of value to entry, if any row qualifies. -/
def leavingRow? (t : Tableau α size labels) (entering : Fin labels) : Option (Fin size) :=
  ((List.finRange size).foldl (t.compareRatio entering) none).map Prod.fst

def exchange (t : Tableau α size labels) (r : Fin size) (entering : Fin labels) :
    Tableau α size labels :=
  let pivot := (t.rows.get r).normalize entering
  ⟨Vector.ofFn fun i => if i = r then pivot else (t.rows.get i).eliminate pivot entering⟩

def pivot (t : Tableau α size labels) (entering : Nat) : Except Fault (Exchange α size labels) :=
  if h : entering < labels then
    if t.isBasic entering then .error (.invalid (.alreadyBasic entering))
    else
      match t.leavingRow? ⟨entering, h⟩ with
      | none => .error (.degeneratePivot entering)
      | some r => .ok ⟨r, (t.rows.get r).label, t.exchange r ⟨entering, h⟩⟩
  else .error (.invalid (.enteringOutOfRange entering labels))

end Tableau

end Bimatrix
