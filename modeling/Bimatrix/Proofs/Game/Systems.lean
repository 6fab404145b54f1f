import Mathlib.Data.Matrix.ColumnRowPartitioned
import Mathlib.Tactic
import Bimatrix.Pair
import Bimatrix.Proofs.Game.Normalization
import Bimatrix.Proofs.Tableau.InverseForm

/-! # The two systems of a game

The identity beside the normalized payoffs of the row player, and those of the column player,
transposed, beside the identity.  The tableaus from which every path starts hold them.
-/
namespace Bimatrix

open Matrix

variable {n m : ℕ}

theorem natAdd_ne_castAdd (i : Fin n) (j : Fin m) : j.natAdd n ≠ i.castAdd m := by
  intro h
  have hval := congrArg Fin.val h
  simp only [Fin.val_natAdd, Fin.val_castAdd] at hval
  omega

def rowLabels (n m : ℕ) : Finset (Fin (n + m)) := Finset.univ.image (Fin.castAdd m)

def columnLabels (n m : ℕ) : Finset (Fin (n + m)) := Finset.univ.image (Fin.natAdd n)

theorem card_rowLabels : (rowLabels n m).card = n := by
  rw [rowLabels, Finset.card_image_of_injective _ (Fin.castAdd_injective n m), Finset.card_univ,
    Fintype.card_fin]

theorem card_columnLabels : (columnLabels n m).card = m := by
  rw [columnLabels, Finset.card_image_of_injective _ (Fin.natAdd_injective m n), Finset.card_univ,
    Fintype.card_fin]

theorem columnLabels_eq_compl : columnLabels n m = (rowLabels n m)ᶜ := by
  ext l
  rw [Finset.mem_compl]
  cases l using Fin.addCases with
  | left i => simp [rowLabels, columnLabels, natAdd_ne_castAdd]
  | right j => simp [rowLabels, columnLabels, (natAdd_ne_castAdd _ _).symm]

namespace Game

section Labels
variable {α : Type} [Scalar α] (g : Game α n m)

theorem rowTableau_label (i : Fin n) : g.rowTableau.label i = i.castAdd m := by
  simp [Tableau.label, rowTableau]

theorem columnTableau_label (j : Fin m) : g.columnTableau.label j = j.natAdd n := by
  simp [Tableau.label, columnTableau]

theorem columnTableau_isBasic_start (start : Fin n) : g.columnTableau.isBasic start = false := by
  rw [Tableau.isBasic_eq_false_iff]
  intro j
  rw [columnTableau_label]
  exact Fin.val_ne_of_ne (natAdd_ne_castAdd start j)

end Labels

def rowSystem (g : Game ℚ n m) : Matrix (Fin n) (Fin (n + m)) ℚ :=
  (fromCols 1 (of g.normalizedRow.entry)).submatrix id finSumFinEquiv.symm

def columnSystem (g : Game ℚ n m) : Matrix (Fin m) (Fin (n + m)) ℚ :=
  (fromCols (of g.normalizedColumn.entry)ᵀ 1).submatrix id finSumFinEquiv.symm

variable (g : Game ℚ n m)

@[simp] theorem rowSystem_castAdd (i k : Fin n) :
    g.rowSystem i (k.castAdd m) = (1 : Matrix (Fin n) (Fin n) ℚ) i k := by
  simp [rowSystem]

@[simp] theorem rowSystem_natAdd (i : Fin n) (j : Fin m) :
    g.rowSystem i (j.natAdd n) = g.normalizedRow.entry i j := by
  simp [rowSystem]

@[simp] theorem columnSystem_castAdd (j : Fin m) (i : Fin n) :
    g.columnSystem j (i.castAdd m) = g.normalizedColumn.entry i j := by
  simp [columnSystem]

@[simp] theorem columnSystem_natAdd (j k : Fin m) :
    g.columnSystem j (k.natAdd n) = (1 : Matrix (Fin m) (Fin m) ℚ) j k := by
  simp [columnSystem]

theorem unit_get (i k : Fin n) :
    (unit i : Vector ℚ n).get k = (1 : Matrix (Fin n) (Fin n) ℚ) i k := by
  rw [unit, get_ofFn, one_apply]
  by_cases h : i = k
  · rw [if_pos h, if_pos h.symm]
  · rw [if_neg h, if_neg (Ne.symm h)]

theorem rowTableau_level (i : Fin n) : g.rowTableau.level i = 1 := by
  rw [Tableau.level, rowTableau, get_ofFn]

theorem columnTableau_level (j : Fin m) : g.columnTableau.level j = 1 := by
  rw [Tableau.level, columnTableau, get_ofFn]

theorem rowTableau_entries : g.rowTableau.entries = g.rowSystem := by
  ext i l
  rw [Tableau.entries, rowTableau, get_ofFn]
  cases l using Fin.addCases with
  | left k => rw [get_append_castAdd, unit_get, rowSystem_castAdd]
  | right j =>
    rw [get_append_natAdd, rowSystem_natAdd]
    rfl

theorem columnTableau_entries : g.columnTableau.entries = g.columnSystem := by
  ext j l
  rw [Tableau.entries, columnTableau, get_ofFn]
  cases l using Fin.addCases with
  | left i => rw [get_append_castAdd, Table.get_column, columnSystem_castAdd]
  | right k => rw [get_append_natAdd, unit_get, columnSystem_natAdd]

theorem basisColumns_rowTableau : g.rowTableau.basisColumns g.rowSystem = 1 := by
  ext i k
  rw [Tableau.basisColumns, submatrix_apply, rowTableau_label, id, rowSystem_castAdd]

theorem basisColumns_columnTableau : g.columnTableau.basisColumns g.columnSystem = 1 := by
  ext j k
  rw [Tableau.basisColumns, submatrix_apply, columnTableau_label, id, columnSystem_natAdd]

theorem inverseForm_rowTableau : Tableau.InverseForm g.rowSystem g.rowTableau where
  det_pos := by
    rw [basisColumns_rowTableau, det_one]
    exact one_pos
  mul_entries := by rw [basisColumns_rowTableau, Matrix.one_mul, rowTableau_entries]

theorem inverseForm_columnTableau : Tableau.InverseForm g.columnSystem g.columnTableau where
  det_pos := by
    rw [basisColumns_columnTableau, det_one]
    exact one_pos
  mul_entries := by rw [basisColumns_columnTableau, Matrix.one_mul, columnTableau_entries]

theorem rightSide_rowTableau : g.rowTableau.rightSide g.rowSystem = 1 := by
  rw [Tableau.rightSide, basisColumns_rowTableau, one_mulVec]
  exact funext g.rowTableau_level

theorem rightSide_columnTableau : g.columnTableau.rightSide g.columnSystem = 1 := by
  rw [Tableau.rightSide, basisColumns_columnTableau, one_mulVec]
  exact funext g.columnTableau_level

theorem one_apply_mem_Icc (i k : Fin n) : (1 : Matrix (Fin n) (Fin n) ℚ) i k ∈ Set.Icc 0 2 := by
  rw [one_apply]
  split_ifs <;> norm_num

theorem rowSystem_mem_Icc (i : Fin n) (l : Fin (n + m)) : g.rowSystem i l ∈ Set.Icc 0 2 := by
  cases l using Fin.addCases with
  | left k =>
    rw [rowSystem_castAdd]
    exact one_apply_mem_Icc i k
  | right j =>
    rw [rowSystem_natAdd]
    exact Set.Icc_subset_Icc_left zero_le_one (g.normalizedRow_mem_Icc i j)

theorem columnSystem_mem_Icc (j : Fin m) (l : Fin (n + m)) : g.columnSystem j l ∈ Set.Icc 0 2 := by
  cases l using Fin.addCases with
  | left i =>
    rw [columnSystem_castAdd]
    exact Set.Icc_subset_Icc_left zero_le_one (g.normalizedColumn_mem_Icc i j)
  | right k =>
    rw [columnSystem_natAdd]
    exact one_apply_mem_Icc j k

theorem rowSystem_nonneg (i : Fin n) (l : Fin (n + m)) : 0 ≤ g.rowSystem i l :=
  (g.rowSystem_mem_Icc i l).1

theorem columnSystem_nonneg (j : Fin m) (l : Fin (n + m)) : 0 ≤ g.columnSystem j l :=
  (g.columnSystem_mem_Icc j l).1

theorem rowSystem_mulVec (x : Fin (n + m) → ℚ) (i : Fin n) : (g.rowSystem *ᵥ x) i =
    x (i.castAdd m) + ∑ j, g.normalizedRow.entry i j * x (j.natAdd n) := by
  rw [mulVec, dotProduct, Fin.sum_univ_add]
  simp [one_apply]

theorem columnSystem_mulVec (x : Fin (n + m) → ℚ) (j : Fin m) : (g.columnSystem *ᵥ x) j =
    ∑ i, g.normalizedColumn.entry i j * x (i.castAdd m) + x (j.natAdd n) := by
  rw [mulVec, dotProduct, Fin.sum_univ_add]
  simp [one_apply]

def matchingPennies : Game ℚ 2 2 where
  row := #v[#v[1, -1], #v[-1, 1]]
  column := #v[#v[-1, 1], #v[1, -1]]
  rows_pos := by decide
  columns_pos := by decide
  row_finite _ _ := rfl
  column_finite _ _ := rfl

/-- The second row has two best responses, so that a ratio test of the path is tied. -/
def twoBestResponses : Game ℚ 2 2 where
  row := #v[#v[2, 0], #v[0, 1]]
  column := #v[#v[0, 1], #v[0, 0]]
  rows_pos := by decide
  columns_pos := by decide
  row_finite _ _ := rfl
  column_finite _ _ := rfl

/-- Against the second column the rows differ by less than the cutoff. -/
def nearTied : Game ℚ 2 2 where
  row := #v[#v[2, 1], #v[2, 1 + 1 / 1099511627776]]
  column := #v[#v[1, 2], #v[2, 1]]
  rows_pos := by decide
  columns_pos := by decide
  row_finite _ _ := rfl
  column_finite _ _ := rfl

/-- From the second row five pivots lead to the one mixed equilibrium. -/
def fivePivots : Game ℚ 2 3 where
  row := #v[#v[4, 0, 3], #v[1, 2, 0]]
  column := #v[#v[1, 4, 3], #v[4, 1, 3]]
  rows_pos := by decide
  columns_pos := by decide
  row_finite _ _ := rfl
  column_finite _ _ := rfl

end Game

end Bimatrix
