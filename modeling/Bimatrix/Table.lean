import Bimatrix.Fault

/-! # Tables

Rectangular tables whose shape is in the type, the shapes that can be stored, and how rows of numbers
become a table.
-/
namespace Bimatrix

abbrev Table (α : Type) (rows columns : Nat) := Vector (Vector α columns) rows

namespace Table

variable {α β : Type} {r c : Nat}

def ofFn (f : Fin r → Fin c → α) : Table α r c := Vector.ofFn fun i => Vector.ofFn fun j => f i j

def entry (t : Table α r c) (i : Fin r) (j : Fin c) : α := (t.get i).get j

def mapEntries (f : α → β) (t : Table α r c) : Table β r c := t.map fun row => row.map f

def column (t : Table α r c) (j : Fin c) : Vector α r := t.map fun row => row.get j

def entries (t : Table α r c) : List α := t.toList.flatMap Vector.toList

/-- Whether a shape is small enough for numbers of eight octets.  The lengths that are not zero
multiply to less than 2⁶³, and so do the octets. -/
def storable (rows columns : Nat) : Bool :=
  decide (max rows 1 * max columns 1 < 0x8000000000000000) &&
    decide (8 * (rows * columns) < 0x8000000000000000)

def checkShape (rows columns : Nat) : Except Fault Unit :=
  if storable rows columns then .ok () else .error .tooLarge

/-- The length of the first row. -/
def width (rows : List (List α)) : Nat := (rows.headD []).length

def ragged? (rows : List (List α)) : Option (List α × Nat) :=
  rows.zipIdx.find? fun x => x.1.length != width rows

theorem length_eq_width {rows : List (List α)} (h : ragged? rows = none) (row : List α)
    (hrow : row ∈ rows) : row.length = width rows := by
  obtain ⟨i, hi, rfl⟩ := List.mem_iff_getElem.mp hrow
  have := List.find?_eq_none.mp h (rows[i], i) (List.mk_mem_zipIdx_iff_getElem?.mpr (by simp [hi]))
  simpa using this

/-- Rows of one length make a table; otherwise the first row whose length differs is named. -/
def ofRows? (rows : List (List α)) : Except Fault (Table α rows.length (width rows)) :=
  match h : ragged? rows with
  | some (row, i) => .error (.invalid (.raggedRow i row.length (width rows)))
  | none =>
    .ok ⟨(rows.attach.map fun row =>
        ⟨row.1.toArray, by simpa using length_eq_width h row.1 row.2⟩).toArray,
      by simp⟩

end Table

end Bimatrix
