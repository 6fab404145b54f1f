import Mathlib.LinearAlgebra.Matrix.Determinant.Basic
import Mathlib.Tactic
import Bimatrix.Proofs.Tableau.RatioTest

/-! # The basis-inverse form in exact arithmetic

A pivot multiplies the columns of the initial system at the basis by one elementary matrix and the
coefficients by its inverse.  So the product of the two stays the initial system, and the
determinant of the basic columns stays positive.
-/
namespace Bimatrix

variable {size labels : ℕ}

namespace Row

theorem normalize_get {row : Row ℚ labels} {q : Fin labels} (h : row.coefficients.get q ≠ 0)
    (j : Fin labels) :
    (row.normalize q).coefficients.get j = row.coefficients.get j / row.coefficients.get q := by
  unfold normalize
  dsimp only
  rw [get_set, get_map]
  split_ifs with hj
  · subst hj
    exact (div_self h).symm
  · rfl

/-- Clearing the entering column is the same linear step in every column, also where the row is
left alone because its entry is zero. -/
theorem eliminate_get {row pivot : Row ℚ labels} {q : Fin labels}
    (h : pivot.coefficients.get q = 1) (j : Fin labels) :
    (row.eliminate pivot q).coefficients.get j =
      row.coefficients.get j - row.coefficients.get q * pivot.coefficients.get j := by
  unfold eliminate
  dsimp only
  split_ifs with he
  · have he0 : row.coefficients.get q = 0 := Scalar.beq_iff.mp he
    rw [he0, zero_mul, sub_zero]
  · dsimp only
    rw [get_set, get_zipWith]
    split_ifs with hj
    · subst hj
      rw [h, mul_one, sub_self]
    · exact (sub_eq_add_neg _ _).trans (congrArg _ (neg_mul _ _).symm) |>.symm

theorem clamp_eq (e v : ℚ) : clamp e v = if 0 < e ∧ v < 0 then 0 else v := rfl

theorem eliminate_value (row pivot : Row ℚ labels) (q : Fin labels) :
    (row.eliminate pivot q).value = clamp (row.coefficients.get q)
      (row.value - row.coefficients.get q * pivot.value) := by
  unfold eliminate
  dsimp only
  split_ifs with he
  · have he0 : row.coefficients.get q = 0 := Scalar.beq_iff.mp he
    rw [he0, clamp_eq, if_neg (fun h => lt_irrefl _ h.1), zero_mul, sub_zero]
  · rfl

theorem le_clamp (e v : ℚ) : v ≤ clamp e v := by
  rw [clamp_eq]
  split_ifs with h
  · exact h.2.le
  · exact le_rfl

end Row

namespace Tableau

open Matrix

theorem exchange_entries {t : Tableau ℚ size labels} {r : Fin size} {q : Fin labels}
    (h : t.entries r q ≠ 0) (i : Fin size) (j : Fin labels) :
    (t.exchange r q).entries i j = if i = r then t.entries r j / t.entries r q
      else t.entries i j - t.entries i q * (t.entries r j / t.entries r q) := by
  rw [entries, exchange_get]
  have hq : ((t.rows.get r).normalize q).coefficients.get q = 1 :=
    (Row.normalize_get h q).trans (div_self h)
  split_ifs with hi
  · exact Row.normalize_get h j
  · rw [Row.eliminate_get hq, Row.normalize_get h]
    rfl

theorem exchange_level (t : Tableau ℚ size labels) (r : Fin size) (q : Fin labels) (i : Fin size) :
    (t.exchange r q).level i = if i = r then t.ratio q r
      else Row.clamp (t.entries i q) (t.level i - t.entries i q * t.ratio q r) := by
  rw [level, exchange_get]
  split_ifs with hi
  · rfl
  · rw [Row.eliminate_value]
    rfl

/-- Pivots keep every basic value nonnegative. -/
theorem exchange_level_nonneg {t : Tableau ℚ size labels} {r : Fin size} {q : Fin labels}
    (h : ∀ i, 0 ≤ t.level i) (hr : 0 < t.entries r q) (i : Fin size) :
    0 ≤ (t.exchange r q).level i := by
  have hratio : 0 ≤ t.ratio q r := div_nonneg (h r) hr.le
  rw [exchange_level]
  split_ifs with hi
  · exact hratio
  · rw [Row.clamp_eq]
    split_ifs with hc
    · exact le_rfl
    · rcases le_or_gt (t.entries i q) 0 with he | he
      · have := mul_nonpos_of_nonpos_of_nonneg he hratio
        linarith [h i]
      · exact not_lt.mp fun hv => hc ⟨he, hv⟩

def raise (t : Tableau ℚ size labels) (r : Fin size) (q : Fin labels) (i : Fin size) : ℚ :=
  if i = r then 0
  else Row.clamp (t.entries i q) (t.level i - t.entries i q * t.ratio q r) -
    (t.level i - t.entries i q * t.ratio q r)

theorem raise_nonneg (t : Tableau ℚ size labels) (r : Fin size) (q : Fin labels) (i : Fin size) :
    0 ≤ t.raise r q i := by
  unfold raise
  split_ifs
  · exact le_rfl
  · exact sub_nonneg.mpr (Row.le_clamp _ _)

theorem exchange_level_sub_raise (t : Tableau ℚ size labels) (r : Fin size) (q : Fin labels)
    (i : Fin size) : (t.exchange r q).level i - t.raise r q i =
      if i = r then t.ratio q r else t.level i - t.entries i q * t.ratio q r := by
  rw [exchange_level, raise]
  split_ifs <;> ring

/-- The identity with the entering column in place of the column of the row that leaves. -/
def eta (t : Tableau ℚ size labels) (r : Fin size) (q : Fin labels) :
    Matrix (Fin size) (Fin size) ℚ :=
  (1 : Matrix (Fin size) (Fin size) ℚ).updateCol r fun i => t.entries i q

theorem eta_mulVec (t : Tableau ℚ size labels) (r : Fin size) (q : Fin labels) (v : Fin size → ℚ)
    (i : Fin size) : (t.eta r q *ᵥ v) i = (if i = r then 0 else v i) + t.entries i q * v r := by
  have hterm (k : Fin size) : t.eta r q i k * v k =
      (if k = i then (if i = r then 0 else v i) else 0) +
        if k = r then t.entries i q * v r else 0 := by
    rw [eta, updateCol_apply, one_apply]
    by_cases hk : k = r
    · subst hk
      by_cases hki : k = i
      · simp [hki]
      · simp [hki]
    · by_cases hki : k = i
      · subst hki
        simp [hk]
      · simp [hk, hki, Ne.symm hki]
  simp only [mulVec, dotProduct, hterm, Finset.sum_add_distrib, Finset.sum_ite_eq',
    Finset.mem_univ, if_true]

theorem eta_mul_exchange {t : Tableau ℚ size labels} {r : Fin size} {q : Fin labels}
    (h : t.entries r q ≠ 0) : t.eta r q * (t.exchange r q).entries = t.entries := by
  ext i j
  have hcol : (t.eta r q * (t.exchange r q).entries) i j =
      (t.eta r q *ᵥ fun k => (t.exchange r q).entries k j) i := rfl
  rw [hcol, eta_mulVec, exchange_entries h, exchange_entries h, if_pos rfl]
  split_ifs with hi
  · subst hi
    field_simp
    ring
  · ring

theorem eta_mulVec_level {t : Tableau ℚ size labels} {r : Fin size} {q : Fin labels}
    (h : t.entries r q ≠ 0) :
    t.eta r q *ᵥ ((t.exchange r q).level - t.raise r q) = t.level := by
  funext i
  rw [eta_mulVec, Pi.sub_apply, Pi.sub_apply, exchange_level_sub_raise, exchange_level_sub_raise,
    if_pos rfl, ratio]
  split_ifs with hi
  · subst hi
    field_simp
    ring
  · ring

/-- The columns of a system at the basic labels, in the order of the rows. -/
def basisColumns (t : Tableau ℚ size labels) (A : Matrix (Fin size) (Fin labels) ℚ) :
    Matrix (Fin size) (Fin size) ℚ :=
  A.submatrix id t.label

/-- The tableau is the initial system multiplied by the inverse of its basic columns. -/
structure InverseForm (A : Matrix (Fin size) (Fin labels) ℚ) (t : Tableau ℚ size labels) :
    Prop where
  det_pos : 0 < (t.basisColumns A).det
  mul_entries : t.basisColumns A * t.entries = A

variable {A : Matrix (Fin size) (Fin labels) ℚ} {t u : Tableau ℚ size labels}

theorem InverseForm.label_injective (h : InverseForm A t) : Function.Injective t.label := by
  intro i j hij
  by_contra hne
  apply h.det_pos.ne'
  apply det_zero_of_column_eq hne
  intro k
  simp [basisColumns, hij]

/-- Every column of the system is the combination of the basic columns given by its entries. -/
theorem InverseForm.apply_eq_sum (h : InverseForm A t) (i : Fin size) (q : Fin labels) :
    A i q = ∑ r, A i (t.label r) * t.entries r q := by
  conv_lhs => rw [← h.mul_entries]
  rfl

theorem InverseForm.basisColumns_exchange (h : InverseForm A t) (r : Fin size) (q : Fin labels) :
    (t.exchange r q).basisColumns A = t.basisColumns A * t.eta r q := by
  rw [eta, mul_updateCol, mul_one]
  ext i k
  rw [basisColumns, submatrix_apply, exchange_label, updateCol_apply, Function.update_apply]
  split_ifs
  · exact h.apply_eq_sum i q
  · rfl

theorem InverseForm.exchange (h : InverseForm A t) {r : Fin size} {q : Fin labels}
    (hr : 0 < t.entries r q) : InverseForm A (t.exchange r q) where
  det_pos := by
    have hcol : (fun i => A i q) =
        fun i => ∑ k, t.entries k q • t.basisColumns A i k := by
      funext i
      simp only [h.apply_eq_sum i q, basisColumns, submatrix_apply, id, smul_eq_mul, mul_comm]
    have hupdate : (t.exchange r q).basisColumns A =
        (t.basisColumns A).updateCol r fun i => A i q := by
      rw [h.basisColumns_exchange, eta, mul_updateCol, mul_one]
      congr 1
      funext i
      exact (h.apply_eq_sum i q).symm
    rw [hupdate, hcol, det_updateCol_sum, smul_eq_mul]
    exact mul_pos hr h.det_pos
  mul_entries := by
    rw [h.basisColumns_exchange, Matrix.mul_assoc, eta_mul_exchange hr.ne', h.mul_entries]

/-- The right-hand side that the basic values solve the system for. -/
def rightSide (t : Tableau ℚ size labels) (A : Matrix (Fin size) (Fin labels) ℚ) : Fin size → ℚ :=
  t.basisColumns A *ᵥ t.level

/-- A row that the clamp raises adds the amount times its column to the right-hand side. -/
theorem InverseForm.rightSide_exchange (h : InverseForm A t) {r : Fin size} {q : Fin labels}
    (hr : t.entries r q ≠ 0) : (t.exchange r q).rightSide A =
      t.rightSide A + (t.exchange r q).basisColumns A *ᵥ t.raise r q := by
  have hsplit : (t.exchange r q).level =
      ((t.exchange r q).level - t.raise r q) + t.raise r q := (sub_add_cancel _ _).symm
  conv_lhs => rw [rightSide, hsplit, mulVec_add, h.basisColumns_exchange, ← mulVec_mulVec,
    eta_mulVec_level hr, ← h.basisColumns_exchange]
  rfl

theorem InverseForm.rightSide_le_exchange (hA : ∀ i j, 0 ≤ A i j) (h : InverseForm A t)
    {r : Fin size} {q : Fin labels} (hr : t.entries r q ≠ 0) (i : Fin size) :
    t.rightSide A i ≤ (t.exchange r q).rightSide A i := by
  have hraise : 0 ≤ ((t.exchange r q).basisColumns A *ᵥ t.raise r q) i :=
    Finset.sum_nonneg fun k _ => mul_nonneg (hA _ _) (raise_nonneg _ _ _ _)
  rw [h.rightSide_exchange hr, Pi.add_apply]
  exact le_add_of_nonneg_right hraise

theorem basisColumns_mulVec (h : Function.Injective t.label)
    (A : Matrix (Fin size) (Fin labels) ℚ) {z : Fin labels → ℚ}
    (hz : ∀ l ∉ Set.range t.label, z l = 0) : t.basisColumns A *ᵥ (z ∘ t.label) = A *ᵥ z := by
  funext i
  apply Fintype.sum_of_injective t.label h
  · intro l hl
    rw [hz l hl]
    exact mul_zero _
  · intro r
    rfl

/-- The values of all labels solve the system for the right-hand side. -/
theorem mulVec_value (h : Function.Injective t.label) (A : Matrix (Fin size) (Fin labels) ℚ) :
    A *ᵥ t.value = t.rightSide A := by
  have hlevel : t.value ∘ t.label = t.level := funext fun i => value_of_basic h i
  rw [← basisColumns_mulVec h A fun l hl => value_of_not_basic hl, hlevel]
  rfl

theorem value_nonneg (hinj : Function.Injective t.label) (h : ∀ i, 0 ≤ t.level i)
    (l : Fin labels) : 0 ≤ t.value l := by
  by_cases hl : l ∈ Set.range t.label
  · obtain ⟨i, rfl⟩ := hl
    rw [value_of_basic hinj]
    exact h i
  · rw [value_of_not_basic hl]

def ClampIdle (t : Tableau ℚ size labels) (q : Fin labels) : Prop :=
  ∀ r, t.leavingRow? q = some r → ∀ i, t.raise r q i = 0

instance (t : Tableau ℚ size labels) (q : Fin labels) : Decidable (t.ClampIdle q) :=
  inferInstanceAs (Decidable (∀ _, _ → ∀ _, _))

/-- A successful pivot is an exchange on a positive entry. -/
theorem exchange_of_pivot {q : ℕ} {x : Exchange ℚ size labels} (h : t.pivot q = .ok x) :
    ∃ hq : q < labels, x.tableau = t.exchange x.row ⟨q, hq⟩ ∧ 0 < t.entries x.row ⟨q, hq⟩ := by
  obtain ⟨hq, -, hrow, hx⟩ := pivot_eq_ok_iff.mp h
  exact ⟨hq, congrArg Exchange.tableau hx, entry_pos_of_leavingRow? hrow⟩

/-- A pivot adds to the right-hand side what the clamp raises. -/
theorem InverseForm.rightSide_pivot_add (h : InverseForm A t) {q : Fin labels}
    {x : Exchange ℚ size labels} (hx : t.pivot q.val = .ok x) :
    x.tableau.rightSide A = t.rightSide A + x.tableau.basisColumns A *ᵥ t.raise x.row q := by
  obtain ⟨_, -, hrow, htableau⟩ := pivot_eq_ok_iff.mp hx
  rw [htableau]
  exact h.rightSide_exchange (entry_pos_of_leavingRow? hrow).ne'

/-- Where the clamp is idle a pivot keeps the right-hand side. -/
theorem InverseForm.rightSide_pivot (h : InverseForm A t) {q : Fin labels}
    {x : Exchange ℚ size labels} (hx : t.pivot q.val = .ok x) (hidle : t.ClampIdle q) :
    x.tableau.rightSide A = t.rightSide A := by
  obtain ⟨_, -, hrow, -⟩ := pivot_eq_ok_iff.mp hx
  have hraise : t.raise x.row q = 0 := funext (hidle x.row hrow)
  rw [h.rightSide_pivot_add hx, hraise, mulVec_zero, add_zero]

theorem InverseForm.pivots (h : InverseForm A t) (hu : t.Pivots u) : InverseForm A u := by
  induction hu with
  | refl => exact h
  | step _ hx ih =>
    obtain ⟨hq, htableau, hpos⟩ := exchange_of_pivot hx
    rw [htableau]
    exact ih.exchange hpos

theorem level_nonneg_of_pivots (h : ∀ i, 0 ≤ t.level i) (hu : t.Pivots u) (i : Fin size) :
    0 ≤ u.level i := by
  induction hu generalizing i with
  | refl => exact h i
  | step _ hx ih =>
    obtain ⟨hq, htableau, hpos⟩ := exchange_of_pivot hx
    rw [htableau]
    exact exchange_level_nonneg ih hpos i

/-- The clamp never lowers the right-hand side of a system without negative entries. -/
theorem InverseForm.rightSide_le_of_pivots (hA : ∀ i j, 0 ≤ A i j) (h : InverseForm A t)
    (hu : t.Pivots u) (i : Fin size) : t.rightSide A i ≤ u.rightSide A i := by
  induction hu with
  | refl => exact le_rfl
  | step hrun hx ih =>
    obtain ⟨hq, htableau, hpos⟩ := exchange_of_pivot hx
    rw [htableau]
    exact ih.trans ((h.pivots hrun).rightSide_le_exchange hA hpos.ne' i)

end Tableau

end Bimatrix
