import Mathlib.LinearAlgebra.Matrix.Nondegenerate
import Mathlib.Tactic
import Bimatrix.Proofs.Tableau.InverseForm

/-! # What the clamp does in a pivot

The ratio test keeps the rows with an entry above the cutoff from falling below zero.  A row that
the clamp raises has a positive entry that the ratio test passed over, and it is raised by no more
than the cutoff times the value of the entering label.  Any raise moves the right-hand side that the
values solve the system for.
-/
namespace Bimatrix.Tableau

open Matrix

variable {size labels : ℕ} {A : Matrix (Fin size) (Fin labels) ℚ} {t : Tableau ℚ size labels}
  {q : Fin labels} {r : Fin size} {x : Exchange ℚ size labels}

/-- No row with a positive entry would fall below zero if row `r` left. -/
def BoundsRows (t : Tableau ℚ size labels) (q : Fin labels) (r : Fin size) : Prop :=
  ∀ i ≠ r, 0 < t.entries i q → 0 ≤ t.level i - t.entries i q * t.ratio q r

instance (t : Tableau ℚ size labels) (q : Fin labels) (r : Fin size) :
    Decidable (t.BoundsRows q r) :=
  inferInstanceAs (Decidable (∀ _, _ → _ → _))

theorem raise_eq_zero_iff {i : Fin size} : t.raise r q i = 0 ↔
    (i ≠ r → 0 < t.entries i q → 0 ≤ t.level i - t.entries i q * t.ratio q r) := by
  unfold raise
  rw [Row.clamp_eq]
  split_ifs with hi hc
  · exact iff_of_true rfl fun hne => absurd hi hne
  · have hneg := hc.2
    refine iff_of_false ?_ fun h => absurd (h hi hc.1) (not_le.mpr hneg)
    rw [zero_sub]
    exact neg_ne_zero.mpr hneg.ne
  · refine iff_of_true (sub_self _) fun _ hpos => ?_
    exact not_lt.mp fun hneg => hc ⟨hpos, hneg⟩

theorem boundsRows_iff : t.BoundsRows q r ↔ ∀ i, t.raise r q i = 0 :=
  forall_congr' fun _ => raise_eq_zero_iff.symm

theorem ratio_nonneg (hlevel : ∀ i, 0 ≤ t.level i) (hr : t.leavingRow? q = some r) :
    0 ≤ t.ratio q r :=
  div_nonneg (hlevel r) (entry_pos_of_leavingRow? hr).le

/-- Only a row passed over by the ratio test is raised, and its entry is small. -/
theorem raise_le (hlevel : ∀ i, 0 ≤ t.level i) (hr : t.leavingRow? q = some r) (i : Fin size) :
    t.raise r q i ≤ Scalar.cutoff * t.ratio q r := by
  have hbound : 0 ≤ Scalar.cutoff * t.ratio q r :=
    mul_nonneg Scalar.cutoff_pos.le (ratio_nonneg hlevel hr)
  rcases le_or_gt (t.entries i q) Scalar.cutoff with hsmall | hlarge
  · unfold raise
    rw [Row.clamp_eq]
    split_ifs
    · exact hbound
    · have hmul := mul_le_mul_of_nonneg_right hsmall (ratio_nonneg hlevel hr)
      linarith [hlevel i]
    · rw [sub_self]
      exact hbound
  · have hzero : t.raise r q i = 0 :=
      raise_eq_zero_iff.mpr fun _ _ => sub_nonneg.mpr (mul_ratio_le_level hr hlarge)
    rw [hzero]
    exact hbound

/-- A right-hand side that has been kept above a bound comes down to it only if it was there before
and the clamp is idle. -/
theorem InverseForm.rightSide_pivot_eq_iff (hA : ∀ i j, 0 ≤ A i j) (h : InverseForm A t)
    (hx : t.pivot q.val = .ok x) {b : Fin size → ℚ} (hb : b ≤ t.rightSide A) :
    x.tableau.rightSide A = b ↔ t.rightSide A = b ∧ t.BoundsRows q x.row := by
  have hnonneg : 0 ≤ x.tableau.basisColumns A *ᵥ t.raise x.row q := by
    intro i
    exact Finset.sum_nonneg fun k _ => mul_nonneg (hA _ _) (raise_nonneg _ _ _ _)
  rw [h.rightSide_pivot_add hx, boundsRows_iff]
  constructor
  · intro heq
    have hside : t.rightSide A = b := by
      apply le_antisymm _ hb
      rw [← heq]
      exact le_add_of_nonneg_right hnonneg
    rw [hside, add_eq_left] at heq
    have hdet := (h.pivots (.step .refl hx)).det_pos.ne'
    exact ⟨hside, congrFun (eq_zero_of_mulVec_eq_zero hdet heq)⟩
  · rintro ⟨hside, hraise⟩
    rw [hside, show t.raise x.row q = 0 from funext hraise, mulVec_zero, add_zero]

end Bimatrix.Tableau
