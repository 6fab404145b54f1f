import Mathlib.Tactic
import Bimatrix.Game
import Bimatrix.Proofs.Scalar
import Bimatrix.Proofs.Table

/-! # Normalized payoffs in exact arithmetic

The map common to both players takes the payoffs of the game into `[1, 2]` and divides all their
differences by the same number.
-/
namespace Bimatrix

namespace PayoffRange

/-- Halves of a least and of the distance to a greatest payoff. -/
theorem ofPayoffs_eq {us : List ℚ} {low high : ℚ} (hlow : us.min? = some low)
    (hhigh : us.max? = some high) : ofPayoffs us = ⟨low / 2, high / 2 - low / 2⟩ := by
  simp only [ofPayoffs, Scalar.smallest?_eq_min?, Scalar.largest?_eq_max?, hlow, hhigh,
    Option.getD_some, Scalar.half_eq]
  congr 1
  · exact mul_one_div low 2
  · exact congrArg₂ (· - ·) (mul_one_div high 2) (mul_one_div low 2)

theorem normalize_eq (s : PayoffRange ℚ) (u : ℚ) :
    s.normalize u = if s.span = 0 then 1 else (u / 2 - s.low) / s.span + 1 := by
  unfold normalize
  rw [Scalar.half_eq]
  by_cases h : s.span = 0
  · rw [if_pos h, if_pos (Scalar.beq_iff.mpr h)]
  · rw [if_neg h, if_neg (mt Scalar.beq_iff.mp h)]
    change (u * (1 / 2) - s.low) / s.span + 1 = _
    ring

theorem normalize_mem_Icc {us : List ℚ} {u : ℚ} (h : u ∈ us) :
    (ofPayoffs us).normalize u ∈ Set.Icc 1 2 := by
  obtain ⟨low, hlow⟩ := Option.isSome_iff_exists.mp (List.isSome_min?_of_mem h)
  obtain ⟨high, hhigh⟩ := Option.isSome_iff_exists.mp (List.isSome_max?_of_mem h)
  have hle := (List.min?_eq_some_iff.mp hlow).2 u h
  have hge := (List.max?_eq_some_iff.mp hhigh).2 u h
  rw [normalize_eq, ofPayoffs_eq hlow hhigh]
  split_ifs with hspan
  · norm_num
  · have hpos : 0 < high / 2 - low / 2 :=
      lt_of_le_of_ne (by linarith) (Ne.symm hspan)
    have hnonneg : 0 ≤ (u / 2 - low / 2) / (high / 2 - low / 2) :=
      div_nonneg (by linarith) hpos.le
    have hone : (u / 2 - low / 2) / (high / 2 - low / 2) ≤ 1 :=
      (div_le_one hpos).mpr (by linarith)
    exact ⟨by linarith, by linarith⟩

/-- The map divides differences of payoffs by the distance from the least to the greatest. -/
theorem sub_eq_mul_normalize_sub {us : List ℚ} {low high u v : ℚ} (hlow : us.min? = some low)
    (hhigh : us.max? = some high) (hu : u ∈ us) (hv : v ∈ us) :
    u - v = (high - low) * ((ofPayoffs us).normalize u - (ofPayoffs us).normalize v) := by
  have hle := (List.min?_eq_some_iff.mp hlow).2
  have hge := (List.max?_eq_some_iff.mp hhigh).2
  rw [normalize_eq, normalize_eq, ofPayoffs_eq hlow hhigh]
  have hdistance : high - low = 2 * (high / 2 - low / 2) := by ring
  rw [hdistance]
  by_cases hspan : high / 2 - low / 2 = 0
  · rw [if_pos hspan, if_pos hspan, sub_self, mul_zero]
    linarith [hle u hu, hge u hu, hle v hv, hge v hv]
  · rw [if_neg hspan, if_neg hspan]
    generalize high / 2 - low / 2 = span at hspan
    change u - v =
      2 * span * ((u / 2 - low / 2) / span + 1 - ((v / 2 - low / 2) / span + 1))
    field_simp
    ring

end PayoffRange

namespace Game

variable {n m : ℕ}

theorem row_entry_mem_payoffs (g : Game ℚ n m) (i : Fin n) (j : Fin m) :
    g.row.entry i j ∈ g.payoffs :=
  List.mem_append_left _ (g.row.entry_mem_entries i j)

theorem column_entry_mem_payoffs (g : Game ℚ n m) (i : Fin n) (j : Fin m) :
    g.column.entry i j ∈ g.payoffs :=
  List.mem_append_right _ (g.column.entry_mem_entries i j)

theorem normalizedRow_mem_Icc (g : Game ℚ n m) (i : Fin n) (j : Fin m) :
    g.normalizedRow.entry i j ∈ Set.Icc 1 2 := by
  rw [normalizedRow, Table.entry_mapEntries]
  exact PayoffRange.normalize_mem_Icc (g.row_entry_mem_payoffs i j)

theorem normalizedColumn_mem_Icc (g : Game ℚ n m) (i : Fin n) (j : Fin m) :
    g.normalizedColumn.entry i j ∈ Set.Icc 1 2 := by
  rw [normalizedColumn, Table.entry_mapEntries]
  exact PayoffRange.normalize_mem_Icc (g.column_entry_mem_payoffs i j)

theorem exists_extremes (g : Game ℚ n m) :
    ∃ low high, g.payoffs.min? = some low ∧ g.payoffs.max? = some high := by
  have hmem := g.row_entry_mem_payoffs ⟨0, g.rows_pos⟩ ⟨0, g.columns_pos⟩
  obtain ⟨low, hlow⟩ := Option.isSome_iff_exists.mp (List.isSome_min?_of_mem hmem)
  obtain ⟨high, hhigh⟩ := Option.isSome_iff_exists.mp (List.isSome_max?_of_mem hmem)
  exact ⟨low, high, hlow, hhigh⟩

/-- All payoffs lie between some bounds. -/
theorem exists_payoffs_mem_Icc (g : Game ℚ n m) :
    ∃ low high, ∀ u ∈ g.payoffs, u ∈ Set.Icc low high := by
  obtain ⟨low, high, hlow, hhigh⟩ := g.exists_extremes
  exact ⟨low, high, fun u hu =>
    ⟨(List.min?_eq_some_iff.mp hlow).2 u hu, (List.max?_eq_some_iff.mp hhigh).2 u hu⟩⟩

/-- Differences of payoffs are one multiple of those of the normalized payoffs, which is at most
the distance between any bounds of the payoffs. -/
theorem exists_payoff_sub_eq (g : Game ℚ n m) {low high : ℚ}
    (h : ∀ u ∈ g.payoffs, u ∈ Set.Icc low high) :
    ∃ scale, 0 ≤ scale ∧ scale ≤ high - low ∧
      (∀ i i' j, g.row.entry i j - g.row.entry i' j =
        scale * (g.normalizedRow.entry i j - g.normalizedRow.entry i' j)) ∧
      ∀ i j j', g.column.entry i j - g.column.entry i j' =
        scale * (g.normalizedColumn.entry i j - g.normalizedColumn.entry i j') := by
  obtain ⟨least, greatest, hleast, hgreatest⟩ := g.exists_extremes
  have hleastMem := (List.min?_eq_some_iff.mp hleast).1
  have hgreatestMem := (List.max?_eq_some_iff.mp hgreatest).1
  refine ⟨greatest - least, ?_, ?_, ?_, ?_⟩
  · exact sub_nonneg.mpr ((List.min?_eq_some_iff.mp hleast).2 greatest hgreatestMem)
  · exact sub_le_sub (h greatest hgreatestMem).2 (h least hleastMem).1
  · intro i i' j
    rw [normalizedRow, Table.entry_mapEntries, Table.entry_mapEntries]
    exact PayoffRange.sub_eq_mul_normalize_sub hleast hgreatest (g.row_entry_mem_payoffs i j)
      (g.row_entry_mem_payoffs i' j)
  · intro i j j'
    rw [normalizedColumn, Table.entry_mapEntries, Table.entry_mapEntries]
    exact PayoffRange.sub_eq_mul_normalize_sub hleast hgreatest (g.column_entry_mem_payoffs i j)
      (g.column_entry_mem_payoffs i j')

end Game

end Bimatrix
