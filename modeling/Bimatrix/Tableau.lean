import Bimatrix.Table

/-! # Tableaus

A linear system in basis-inverse form: every row belongs to one basic label and gives that label's
value.  The labels that are not basic have value zero.
-/
namespace Bimatrix

structure Row (α : Type) (labels : Nat) where
  label : Fin labels
  coefficients : Vector α labels
  value : α

structure Tableau (α : Type) (size labels : Nat) where
  rows : Vector (Row α labels) size

namespace Tableau

variable {α : Type} {size labels : Nat}

def basis (t : Tableau α size labels) : Vector (Fin labels) size := t.rows.map Row.label

def basicValues (t : Tableau α size labels) : Vector α size := t.rows.map Row.value

def coefficients (t : Tableau α size labels) : Table α size labels := t.rows.map Row.coefficients

def isBasic (t : Tableau α size labels) (label : Nat) : Bool :=
  t.rows.any fun row => row.label.val == label

def isFeasible [Scalar α] (t : Tableau α size labels) : Bool :=
  t.rows.all fun row => decide (0 ≤ row.value)

/-- The value of a label: that of its row when it is basic, else zero. -/
def value [Scalar α] (t : Tableau α size labels) (label : Fin labels) : α :=
  ((t.rows.toList.find? fun row => row.label == label).map Row.value).getD 0

def values [Scalar α] (t : Tableau α size labels) : Vector α labels := Vector.ofFn t.value

/-- The values of all labels, unless the labels are too many for a vector. -/
def values? [Scalar α] (t : Tableau α size labels) : Except Fault (Vector α labels) := do
  Table.checkShape labels 1
  return t.values

/-- The first entry that repeats an earlier one, or one already seen. -/
def firstRepeat? (seen : List Nat) : List Nat → Option Nat
  | [] => none
  | l :: ls => if l ∈ seen then some l else firstRepeat? (l :: seen) ls

def outOfRange? (labels : Nat) (basis : List Nat) : Option Nat :=
  basis.find? fun l => decide (labels ≤ l)

theorem lt_of_outOfRange?_eq_none {basis : List Nat} (h : outOfRange? labels basis = none)
    {l : Nat} (hl : l ∈ basis) : l < labels := by
  simpa using List.find?_eq_none.mp h l hl

/-- A tableau from its parts: one basic label and one value for each row, the labels in range and
all different. -/
def ofParts? (coefficients : Fin size → Fin labels → α) (basis : List Nat) (values : List α) :
    Except Fault (Tableau α size labels) :=
  if h : basis.length = size ∧ values.length = size then
    match hr : outOfRange? labels basis with
    | some l => .error (.invalid (.basicOutOfRange l labels))
    | none =>
      match firstRepeat? [] basis with
      | some l => .error (.invalid (.repeatedLabel l))
      | none =>
        .ok ⟨Vector.ofFn fun i =>
          let b := i.cast h.1.symm
          ⟨⟨basis.get b, lt_of_outOfRange?_eq_none hr (basis.get_mem b)⟩,
            Vector.ofFn (coefficients i), values.get (i.cast h.2.symm)⟩⟩
  else .error (.invalid (.partsDiffer size basis.length values.length))

/-- A tableau whose basic labels all have value one. -/
def ofBasis? [Scalar α] (coefficients : Fin size → Fin labels → α) (basis : List Nat) :
    Except Fault (Tableau α size labels) := do
  Table.checkShape size 1
  ofParts? coefficients basis (List.replicate size 1)

end Tableau

end Bimatrix
