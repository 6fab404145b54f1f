import Mathlib.Tactic
import Bimatrix.Proofs.Game.Invariance
import Bimatrix.Proofs.Tableau.Renaming

/-! # Games with their strategies under other names

The same payoffs at permuted rows and columns.  Normalization does not see the order, so the first
tableaus are those of the game under the other names, each with its own rows permuted.
-/
namespace Bimatrix

open Equiv Matrix

variable {n m : ℕ}

def labelNames (σ : Perm (Fin n)) (τ : Perm (Fin m)) : Perm (Fin (n + m)) :=
  finSumFinEquiv.permCongr (Perm.sumCongr σ τ)

variable {σ : Perm (Fin n)} {τ : Perm (Fin m)}

@[simp] theorem labelNames_castAdd (i : Fin n) :
    labelNames σ τ (i.castAdd m) = (σ i).castAdd m := by
  simp [labelNames]

@[simp] theorem labelNames_natAdd (j : Fin m) :
    labelNames σ τ (j.natAdd n) = (τ j).natAdd n := by
  simp [labelNames]

@[simp] theorem labelNames_symm_castAdd (i : Fin n) :
    (labelNames σ τ).symm (i.castAdd m) = (σ.symm i).castAdd m := by
  rw [symm_apply_eq, labelNames_castAdd, apply_symm_apply]

@[simp] theorem labelNames_symm_natAdd (j : Fin m) :
    (labelNames σ τ).symm (j.natAdd n) = (τ.symm j).natAdd n := by
  rw [symm_apply_eq, labelNames_natAdd, apply_symm_apply]

section Mixes
variable {α : Type}

/-- Entry `i` in place `σ i`. -/
def permute (σ : Perm (Fin n)) (x : Vector α n) : Vector α n := Vector.ofFn fun i => x.get (σ.symm i)

theorem permute_get (x : Vector α n) (i : Fin n) : (permute σ x).get i = x.get (σ.symm i) :=
  get_ofFn _ i

def Profile.rename (σ : Perm (Fin n)) (τ : Perm (Fin m)) (s : Profile α n m) : Profile α n m :=
  ⟨permute σ s.row, permute τ s.column⟩

end Mixes

theorem Summation.total_permute (x : Vector ℚ n) : total (permute σ x) = total x := by
  rw [total_eq_sum, total_eq_sum]
  simp only [permute_get]
  exact Equiv.sum_comp σ.symm x.get

theorem distribution_permute (w : Vector ℚ n) :
    distribution (permute σ w) = permute σ (distribution w) := by
  ext i hi
  unfold distribution
  dsimp only
  rw [Summation.total_permute]
  split_ifs <;> simp [permute, get_eq_getElem]

namespace Game

/-- The game in which row `i` has become row `σ i` and column `j` column `τ j`, for both players. -/
def rename (σ : Perm (Fin n)) (τ : Perm (Fin m)) (g : Game ℚ n m) : Game ℚ n m where
  row := Table.ofFn fun i j => g.row.entry (σ.symm i) (τ.symm j)
  column := Table.ofFn fun i j => g.column.entry (σ.symm i) (τ.symm j)
  rows_pos := g.rows_pos
  columns_pos := g.columns_pos
  row_finite _ _ := rfl
  column_finite _ _ := rfl

variable (g : Game ℚ n m)

theorem payoff_rename (player : Player) (i : Fin n) (j : Fin m) :
    (g.rename σ τ).payoff player i j = g.payoff player (σ.symm i) (τ.symm j) := by
  cases player with
  | row => exact Table.entry_ofFn _ i j
  | column => exact Table.entry_ofFn _ i j

theorem mem_payoffs_rename {u : ℚ} : u ∈ (g.rename σ τ).payoffs ↔ u ∈ g.payoffs := by
  simp only [mem_payoffs_iff, payoff_rename]
  constructor
  · rintro ⟨player, i, j, h⟩
    exact ⟨player, σ.symm i, τ.symm j, h⟩
  · rintro ⟨player, i, j, h⟩
    exact ⟨player, σ i, τ j, by rw [symm_apply_apply, symm_apply_apply, h]⟩

theorem range_rename : (g.rename σ τ).range = g.range := by
  obtain ⟨low, high, hlow, hhigh⟩ := g.exists_extremes
  have hlow' : (g.rename σ τ).payoffs.min? = some low := by
    rw [List.min?_eq_some_iff] at hlow ⊢
    simpa only [mem_payoffs_rename] using hlow
  have hhigh' : (g.rename σ τ).payoffs.max? = some high := by
    rw [List.max?_eq_some_iff] at hhigh ⊢
    simpa only [mem_payoffs_rename] using hhigh
  rw [range, range, PayoffRange.ofPayoffs_eq hlow' hhigh', PayoffRange.ofPayoffs_eq hlow hhigh]

theorem normalizedRow_rename (i : Fin n) (j : Fin m) :
    (g.rename σ τ).normalizedRow.entry i j = g.normalizedRow.entry (σ.symm i) (τ.symm j) := by
  rw [normalizedRow, Table.entry_mapEntries, range_rename, normalizedRow, Table.entry_mapEntries]
  exact congrArg _ (Table.entry_ofFn _ i j)

theorem normalizedColumn_rename (i : Fin n) (j : Fin m) :
    (g.rename σ τ).normalizedColumn.entry i j =
      g.normalizedColumn.entry (σ.symm i) (τ.symm j) := by
  rw [normalizedColumn, Table.entry_mapEntries, range_rename, normalizedColumn,
    Table.entry_mapEntries]
  exact congrArg _ (Table.entry_ofFn _ i j)

theorem rowTableau_rename :
    (g.rename σ τ).rowTableau = g.rowTableau.rename (labelNames σ τ) σ := by
  apply Tableau.ext_parts
  · funext i
    rw [Tableau.rename_label, rowTableau_label, rowTableau_label, labelNames_castAdd,
      apply_symm_apply]
  · funext i l
    rw [Tableau.rename_entries, rowTableau_entries, rowTableau_entries]
    cases l using Fin.addCases with
    | left k =>
      simp only [labelNames_symm_castAdd, rowSystem_castAdd, one_apply, σ.symm.injective.eq_iff]
    | right j => simp only [labelNames_symm_natAdd, rowSystem_natAdd, normalizedRow_rename]
  · funext i
    rw [Tableau.rename_level, rowTableau_level, rowTableau_level]

theorem columnTableau_rename :
    (g.rename σ τ).columnTableau = g.columnTableau.rename (labelNames σ τ) τ := by
  apply Tableau.ext_parts
  · funext j
    rw [Tableau.rename_label, columnTableau_label, columnTableau_label, labelNames_natAdd,
      apply_symm_apply]
  · funext j l
    rw [Tableau.rename_entries, columnTableau_entries, columnTableau_entries]
    cases l using Fin.addCases with
    | left i =>
      simp only [labelNames_symm_castAdd, columnSystem_castAdd, normalizedColumn_rename]
    | right k =>
      simp only [labelNames_symm_natAdd, columnSystem_natAdd, one_apply, τ.symm.injective.eq_iff]
  · funext j
    rw [Tableau.rename_level, columnTableau_level, columnTableau_level]

end Game

end Bimatrix
