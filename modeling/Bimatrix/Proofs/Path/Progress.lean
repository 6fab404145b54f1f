import Mathlib.Tactic
import Bimatrix.Proofs.Game.Systems
import Bimatrix.Proofs.Path.Course

/-! # Every label can enter

In exact arithmetic a column of a system is the combination of its basic columns given by the
entries of the tableau.  The systems of a game have no negative entry and an entry of at least one
in each column, so the entries of a tableau cannot all be small.
-/
namespace Bimatrix

open Matrix

namespace Tableau

variable {size labels : ℕ} {A : Matrix (Fin size) (Fin labels) ℚ} {t : Tableau ℚ size labels}

theorem InverseForm.sum_basic_le (hA : ∀ i j, 0 ≤ A i j) (h : InverseForm A t) (i : Fin size) :
    ∑ r, A i (t.label r) ≤ ∑ l, A i l := by
  rw [← Finset.sum_image (f := A i) h.label_injective.injOn]
  exact Finset.sum_le_univ_sum_of_nonneg (hA i)

/-- A row of the system bounds the largest entry of a column from below. -/
theorem InverseForm.exists_entry_gt (hA : ∀ i j, 0 ≤ A i j) (h : InverseForm A t) {i : Fin size}
    {q : Fin labels} {δ : ℚ} (hδ : 0 ≤ δ) (hi : δ * ∑ l, A i l < A i q) :
    ∃ r, δ < t.entries r q := by
  by_contra hall
  push Not at hall
  have hle : A i q ≤ δ * ∑ l, A i l :=
    calc A i q = ∑ r, A i (t.label r) * t.entries r q := h.apply_eq_sum i q
      _ ≤ ∑ r, A i (t.label r) * δ :=
        Finset.sum_le_sum fun r _ => mul_le_mul_of_nonneg_left (hall r) (hA _ _)
      _ = δ * ∑ r, A i (t.label r) := by rw [← Finset.sum_mul, mul_comm]
      _ ≤ δ * ∑ l, A i l := mul_le_mul_of_nonneg_left (h.sum_basic_le hA i) hδ
  exact absurd hi (not_lt.mpr hle)

theorem exists_pivot_of_entry_gt {q : Fin labels} (hq : t.isBasic q.val = false)
    (h : ∃ r, Scalar.cutoff < t.entries r q) : ∃ x, t.pivot q.val = .ok x := by
  cases hr : t.leavingRow? q with
  | none =>
    obtain ⟨r, hlt⟩ := h
    exact absurd (leavingRow?_eq_none_iff.mp hr r) (not_le.mpr hlt)
  | some r => exact exists_pivot_of_leavingRow hq hr

/-- Entries of at most two and labels in a number far from the inverse of the cutoff. -/
theorem InverseForm.exists_pivot (hA : ∀ i j, A i j ∈ Set.Icc 0 2) (hlabels : labels ≤ 2 * 10 ^ 11)
    (h : InverseForm A t) {q : Fin labels} (hpos : ∃ i, 1 ≤ A i q)
    (hq : t.isBasic q.val = false) : ∃ x, t.pivot q.val = .ok x := by
  obtain ⟨i, hi⟩ := hpos
  have hsum : ∑ l, A i l ≤ 2 * labels :=
    calc ∑ l, A i l ≤ ∑ _l : Fin labels, (2 : ℚ) := Finset.sum_le_sum fun l _ => (hA i l).2
      _ = 2 * labels := by rw [Fin.sum_const, nsmul_eq_mul, mul_comm]
  have hcutoff : Scalar.cutoff * ∑ l, A i l < A i q := by
    have hcast : (labels : ℚ) ≤ 2 * 10 ^ 11 := by exact_mod_cast hlabels
    have hscaled := mul_le_mul_of_nonneg_left hsum Scalar.cutoff_pos.le
    rw [Scalar.cutoff_eq] at hscaled ⊢
    linarith
  have hnonneg : ∀ i j, 0 ≤ A i j := fun i j => (hA i j).1
  exact exists_pivot_of_entry_gt hq (h.exists_entry_gt hnonneg Scalar.cutoff_pos.le hcutoff)

end Tableau

namespace Game

variable {n m : ℕ} (g : Game ℚ n m)

theorem exists_one_le_rowSystem (q : Fin (n + m)) : ∃ i, 1 ≤ g.rowSystem i q := by
  cases q using Fin.addCases with
  | left k =>
    use k
    rw [rowSystem_castAdd, one_apply_eq]
  | right j =>
    use ⟨0, g.rows_pos⟩
    rw [rowSystem_natAdd]
    exact (g.normalizedRow_mem_Icc _ j).1

theorem exists_one_le_columnSystem (q : Fin (n + m)) : ∃ j, 1 ≤ g.columnSystem j q := by
  cases q using Fin.addCases with
  | left i =>
    use ⟨0, g.columns_pos⟩
    rw [columnSystem_castAdd]
    exact (g.normalizedColumn_mem_Icc i _).1
  | right k =>
    use k
    rw [columnSystem_natAdd, one_apply_eq]

theorem exists_rowPivot (hn : n ≤ 10 ^ 11) (hm : m ≤ 10 ^ 11) {t : Tableau ℚ n (n + m)}
    (ht : g.rowTableau.Pivots t) {q : ℕ} (hq : q < n + m) (hbasic : t.isBasic q = false) :
    ∃ x, t.pivot q = .ok x :=
  (g.inverseForm_rowTableau.pivots ht).exists_pivot g.rowSystem_mem_Icc (by omega)
    (g.exists_one_le_rowSystem ⟨q, hq⟩) hbasic

theorem exists_columnPivot (hn : n ≤ 10 ^ 11) (hm : m ≤ 10 ^ 11) {t : Tableau ℚ m (n + m)}
    (ht : g.columnTableau.Pivots t) {q : ℕ} (hq : q < n + m) (hbasic : t.isBasic q = false) :
    ∃ x, t.pivot q = .ok x :=
  (g.inverseForm_columnTableau.pivots ht).exists_pivot g.columnSystem_mem_Icc (by omega)
    (g.exists_one_le_columnSystem ⟨q, hq⟩) hbasic

/-- On the tableaus of a game no pivot is refused for want of a row, after any pivots at all, so
only the bound can end a run without an equilibrium. -/
theorem pivot_never_degenerate (hn : n ≤ 10 ^ 11) (hm : m ≤ 10 ^ 11) :
    (∀ t, g.rowTableau.Pivots t → ∀ q < n + m, t.isBasic q = false →
        ∃ x, t.pivot q = .ok x) ∧
      (∀ t, g.columnTableau.Pivots t → ∀ q < n + m, t.isBasic q = false →
        ∃ x, t.pivot q = .ok x) ∧
      ∀ s : Solver, (∀ label, s.start = .label label → label.toNat < n) →
        (∃ e, s.solve g = .ok e) ∨ s.solve g = .error (.notConverged s.bound.toNat) := by
  refine ⟨fun t ht q => g.exists_rowPivot hn hm ht, fun t ht q => g.exists_columnPivot hn hm ht,
    fun s hs => ?_⟩
  obtain ⟨start, hstart⟩ := s.exists_startingLabel g hs
  refine (Solver.solve_of_next? hstart ?_ ?_).imp_right And.left
  · exact g.exists_columnPivot hn hm .refl (by omega) (g.columnTableau_isBasic_start start)
  · intro i p hp hgap
    obtain ⟨hrow, hcolumn⟩ := pivots_of_pairAt? hp
    exact Pair.exists_next? hgap (fun q => g.exists_rowPivot hn hm hrow)
      (fun q => g.exists_columnPivot hn hm hcolumn) _

theorem pivot_never_degenerate_matchingPennies :
    2 ≤ 10 ^ 11 ∧
      (∀ t, matchingPennies.rowTableau.Pivots t → ∀ q < 2 + 2, t.isBasic q = false →
        ∃ x, t.pivot q = .ok x) ∧
      (∀ t, matchingPennies.columnTableau.Pivots t → ∀ q < 2 + 2, t.isBasic q = false →
        ∃ x, t.pivot q = .ok x) ∧
      ∀ s : Solver, (∀ label, s.start = .label label → label.toNat < 2) →
        (∃ e, s.solve matchingPennies = .ok e) ∨
          s.solve matchingPennies = .error (.notConverged s.bound.toNat) :=
  ⟨by norm_num, matchingPennies.pivot_never_degenerate (by norm_num) (by norm_num)⟩

end Game

end Bimatrix
