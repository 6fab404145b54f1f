import Mathlib.Tactic
import Bimatrix.Proofs.Tableau.Clamp

/-! # The drift of a right-hand side

The entering label takes no more than the right-hand side offers, and each row that the clamp raises
gains at most the cutoff times that value.  So one pivot enlarges the right-hand side by a factor
close to one.
-/
namespace Bimatrix.Tableau

open Matrix

variable {size labels : ℕ} {A : Matrix (Fin size) (Fin labels) ℚ} {t : Tableau ℚ size labels}
  {q : Fin labels} {x : Exchange ℚ size labels} {D ρ : ℚ}

/-- The entries of a row of the system at the labels of any basis add up to at most `D`. -/
def RowSumsLe (A : Matrix (Fin size) (Fin labels) ℚ) (D : ℚ) : Prop :=
  ∀ k, ∀ F : Finset (Fin labels), F.card = size → ∑ l ∈ F, A k l ≤ D

theorem InverseForm.sum_label_le (hD : RowSumsLe A D) (h : InverseForm A t) (k : Fin size) :
    ∑ i, A k (t.label i) ≤ D := by
  rw [← Finset.sum_image (f := A k) h.label_injective.injOn]
  exact hD k t.basisSet (card_basisSet h.label_injective)

/-- What the clamp adds to one entry of the right-hand side. -/
theorem InverseForm.rightSide_pivot_le (hA : ∀ i j, 0 ≤ A i j) (hD : RowSumsLe A D)
    (h : InverseForm A t) (hlevel : ∀ i, 0 ≤ t.level i) (hx : t.pivot q.val = .ok x)
    (k : Fin size) :
    x.tableau.rightSide A k ≤ t.rightSide A k + D * (Scalar.cutoff * t.ratio q x.row) := by
  obtain ⟨_, -, hrow, -⟩ := pivot_eq_ok_iff.mp hx
  have hnext : InverseForm A x.tableau := h.pivots (.step .refl hx)
  have hratio : 0 ≤ Scalar.cutoff * t.ratio q x.row :=
    mul_nonneg Scalar.cutoff_pos.le (ratio_nonneg hlevel hrow)
  have hraise : (x.tableau.basisColumns A *ᵥ t.raise x.row q) k ≤
      D * (Scalar.cutoff * t.ratio q x.row) :=
    calc (x.tableau.basisColumns A *ᵥ t.raise x.row q) k
        = ∑ i, A k (x.tableau.label i) * t.raise x.row q i := rfl
      _ ≤ ∑ i, A k (x.tableau.label i) * (Scalar.cutoff * t.ratio q x.row) :=
        Finset.sum_le_sum fun i _ => mul_le_mul_of_nonneg_left (raise_le hlevel hrow i) (hA _ _)
      _ = (∑ i, A k (x.tableau.label i)) * (Scalar.cutoff * t.ratio q x.row) :=
        (Finset.sum_mul _ _ _).symm
      _ ≤ D * (Scalar.cutoff * t.ratio q x.row) :=
        mul_le_mul_of_nonneg_right (hnext.sum_label_le hD k) hratio
  rw [h.rightSide_pivot_add hx, Pi.add_apply]
  exact add_le_add_right hraise _

theorem level_pivot_row (hx : t.pivot q.val = .ok x) :
    x.tableau.label x.row = q ∧ x.tableau.level x.row = t.ratio q x.row := by
  obtain ⟨_, -, -, htableau⟩ := pivot_eq_ok_iff.mp hx
  constructor
  · rw [(pivot_label hx).2, Function.update_self]
  · rw [htableau]
    exact (exchange_level t x.row q x.row).trans (if_pos rfl)

/-- The value at which a label enters is covered by a row in which its entry is at least one. -/
theorem ratio_le_rightSide (hA : ∀ i j, 0 ≤ A i j) (hlevel : ∀ i, 0 ≤ t.level i)
    (hx : t.pivot q.val = .ok x) {k : Fin size} (hk : 1 ≤ A k q) :
    t.ratio q x.row ≤ x.tableau.rightSide A k := by
  obtain ⟨hlabel, hvalue⟩ := level_pivot_row hx
  have hnonneg : ∀ i, 0 ≤ x.tableau.level i := level_nonneg_of_pivots hlevel (.step .refl hx)
  have hratio : 0 ≤ t.ratio q x.row := hvalue ▸ hnonneg x.row
  calc t.ratio q x.row ≤ A k q * t.ratio q x.row := le_mul_of_one_le_left hratio hk
    _ = A k (x.tableau.label x.row) * x.tableau.level x.row := by rw [hlabel, hvalue]
    _ ≤ ∑ i, A k (x.tableau.label i) * x.tableau.level i :=
      Finset.single_le_sum (f := fun i => A k (x.tableau.label i) * x.tableau.level i)
        (fun i _ => mul_nonneg (hA _ _) (hnonneg i)) (Finset.mem_univ x.row)

/-- One pivot enlarges a right-hand side of at most `ρ` by the factor `1 / (1 - D * cutoff)`. -/
theorem InverseForm.rightSide_pivot_mul_le (hA : ∀ i j, 0 ≤ A i j) (hD : RowSumsLe A D)
    (hcolumn : ∃ k, 1 ≤ A k q) (hsmall : D * Scalar.cutoff ≤ 1) (h : InverseForm A t)
    (hlevel : ∀ i, 0 ≤ t.level i) (hx : t.pivot q.val = .ok x) (hρ : ∀ k, t.rightSide A k ≤ ρ)
    (k : Fin size) : x.tableau.rightSide A k * (1 - D * Scalar.cutoff) ≤ ρ := by
  obtain ⟨l, hl⟩ := hcolumn
  have hD0 : 0 ≤ D * Scalar.cutoff := by
    have hsum := h.sum_label_le hD l
    have hnonneg := Finset.sum_nonneg fun i (_ : i ∈ Finset.univ) => hA l (t.label i)
    exact mul_nonneg (hnonneg.trans hsum) Scalar.cutoff_pos.le
  have hgrow (k : Fin size) : x.tableau.rightSide A k ≤
      ρ + D * Scalar.cutoff * t.ratio q x.row := by
    have hle := h.rightSide_pivot_le hA hD hlevel hx k
    rw [← mul_assoc] at hle
    linarith [hρ k]
  have hratio : t.ratio q x.row * (1 - D * Scalar.cutoff) ≤ ρ := by
    linarith [ratio_le_rightSide hA hlevel hx hl, hgrow l]
  calc x.tableau.rightSide A k * (1 - D * Scalar.cutoff)
      ≤ (ρ + D * Scalar.cutoff * t.ratio q x.row) * (1 - D * Scalar.cutoff) :=
        mul_le_mul_of_nonneg_right (hgrow k) (sub_nonneg.mpr hsmall)
    _ = ρ * (1 - D * Scalar.cutoff) +
        D * Scalar.cutoff * (t.ratio q x.row * (1 - D * Scalar.cutoff)) := by ring
    _ ≤ ρ * (1 - D * Scalar.cutoff) + D * Scalar.cutoff * ρ :=
        add_le_add_right (mul_le_mul_of_nonneg_left hratio hD0) _
    _ = ρ := by ring

end Bimatrix.Tableau
