import Mathlib.LinearAlgebra.Matrix.NonsingularInverse
import Mathlib.Tactic
import Bimatrix.Proofs.Game.Systems
import Bimatrix.Proofs.Tableau.Vertex

/-! # Runs of pivots

In exact arithmetic no run of pivots makes a value negative, whatever the coefficients.  A run from
a tableau whose basic columns are unit vectors multiplies that tableau by the inverse of its columns
at the new basis.  The clamp alone moves the right-hand side, by the column of each label that it
raises.
-/
namespace Bimatrix

open Matrix

variable {size labels : ℕ} {A : Matrix (Fin size) (Fin labels) ℚ} {t u : Tableau ℚ size labels}

namespace Tableau

theorem isFeasible_iff : t.isFeasible = true ↔ ∀ i, 0 ≤ t.level i := by
  simp only [isFeasible, Vector.all_eq_true, decide_eq_true_eq]
  constructor
  · intro h i
    exact h i.val i.isLt
  · intro h i hi
    exact h ⟨i, hi⟩

/-- Whatever the coefficients and the basis, values that are not negative stay so. -/
theorem isFeasible_of_pivots (ht : t.isFeasible = true) (hu : t.Pivots u) :
    u.isFeasible = true ∧ ∀ i, 0 ≤ u.basicValues.get i := by
  have hlevel := level_nonneg_of_pivots (isFeasible_iff.mp ht) hu
  refine ⟨isFeasible_iff.mpr hlevel, fun i => ?_⟩
  rw [basicValues, get_map]
  exact hlevel i

/-- In the column of the last label one entry is above the cutoff, one negative, one zero and one
positive without being above the cutoff. -/
def fourKinds : Tableau ℚ 4 5 :=
  ⟨#v[⟨0, #v[1, 0, 0, 0, 1], 2⟩, ⟨1, #v[0, 1, 0, 0, -1], 1⟩, ⟨2, #v[0, 0, 1, 0, 0], 1⟩,
    ⟨3, #v[0, 0, 0, 1, 1 / 1099511627776], 0⟩]⟩

theorem isFeasible_of_pivots_fourKinds :
    fourKinds.isFeasible = true ∧ fourKinds.pivot 4 = .ok ⟨0, 0, fourKinds.exchange 0 4⟩ ∧
      (fourKinds.exchange 0 4).isFeasible = true ∧
      ∀ i, 0 ≤ (fourKinds.exchange 0 4).basicValues.get i := by
  have hfeasible : fourKinds.isFeasible = true := by decide +kernel
  have hpivot : fourKinds.pivot 4 = .ok ⟨0, 0, fourKinds.exchange 0 4⟩ :=
    pivot_eq_ok_iff.mpr ⟨by decide, by decide +kernel, by decide +kernel, rfl⟩
  exact ⟨hfeasible, hpivot, isFeasible_of_pivots hfeasible (.step .refl hpivot)⟩

/-- The column of the basic label of each row is the unit vector of that row. -/
def UnitBasis (t : Tableau ℚ size labels) : Prop :=
  ∀ i k, t.entries i (t.label k) = (1 : Matrix (Fin size) (Fin size) ℚ) i k

theorem UnitBasis.basisColumns_eq (h : t.UnitBasis) : t.basisColumns t.entries = 1 := by
  ext i k
  exact h i k

theorem UnitBasis.inverseForm (h : t.UnitBasis) : InverseForm t.entries t where
  det_pos := by
    rw [h.basisColumns_eq, det_one]
    exact one_pos
  mul_entries := by rw [h.basisColumns_eq, Matrix.one_mul]

theorem UnitBasis.rightSide_eq (h : t.UnitBasis) : t.rightSide t.entries = t.level := by
  rw [rightSide, h.basisColumns_eq, one_mulVec]

theorem InverseForm.unitBasis (h : InverseForm A t) : t.UnitBasis := by
  have hunit : IsUnit (t.basisColumns A).det := h.det_pos.ne'.isUnit
  have hmul : t.basisColumns A * t.entries.submatrix id t.label = t.basisColumns A :=
    congrArg (fun M : Matrix (Fin size) (Fin labels) ℚ => M.submatrix id t.label) h.mul_entries
  have hone : t.entries.submatrix id t.label = 1 :=
    calc t.entries.submatrix id t.label
        = (t.basisColumns A)⁻¹ * (t.basisColumns A * t.entries.submatrix id t.label) :=
          (nonsing_inv_mul_cancel_left _ _ hunit).symm
      _ = 1 := by rw [hmul, nonsing_inv_mul _ hunit]
  intro i k
  exact congrFun₂ hone i k

theorem span_range_mul_le (P : Matrix (Fin size) (Fin size) ℚ)
    (E : Matrix (Fin size) (Fin labels) ℚ) :
    Submodule.span ℚ (Set.range (P * E).row) ≤ Submodule.span ℚ (Set.range E.row) := by
  rw [Submodule.span_le, Set.range_subset_iff]
  intro i
  have hrow : (P * E).row i = ∑ k, P i k • E.row k := by
    rw [row, mul_apply_eq_vecMul, vecMul_eq_sum]
    rfl
  rw [hrow]
  exact Submodule.sum_mem _ fun k _ =>
    Submodule.smul_mem _ _ (Submodule.subset_span (Set.mem_range_self k))

theorem InverseForm.span_rows (h : InverseForm A t) :
    Submodule.span ℚ (Set.range t.entries.row) = Submodule.span ℚ (Set.range A.row) := by
  apply le_antisymm
  · rw [h.entries_eq]
    exact span_range_mul_le _ A
  · conv_lhs => rw [← h.mul_entries]
    exact span_range_mul_le _ t.entries

/-- Tableaus of one system with the same basic labels differ by the order of their rows only. -/
theorem InverseForm.exists_perm (ht : InverseForm A t) (hu : InverseForm A u)
    (hbasis : t.basisSet = u.basisSet) : ∃ σ : Equiv.Perm (Fin size),
      ∀ i, t.label (σ i) = u.label i ∧ t.entries (σ i) = u.entries i := by
  have hlabel (i : Fin size) : ∃ k, t.label k = u.label i := by
    have hmem : u.label i ∈ t.basisSet := hbasis ▸ mem_basisSet.mpr (Set.mem_range_self i)
    exact mem_basisSet.mp hmem
  -- the row of `t` that has the label of a row of `u`
  choose σ hσ using hlabel
  have hinj : Function.Injective σ := by
    intro i j hij
    apply hu.label_injective
    rw [← hσ i, ← hσ j, hij]
  let e : Equiv.Perm (Fin size) := Equiv.ofBijective σ (Finite.injective_iff_bijective.mp hinj)
  have hcolumns : u.basisColumns A = (t.basisColumns A).submatrix id e := by
    ext k i
    exact congrArg (A k) (hσ i).symm
  have hentries : t.entries.submatrix e id = u.entries := by
    have hunit : IsUnit (u.basisColumns A).det := hu.det_pos.ne'.isUnit
    have hmul : u.basisColumns A * t.entries.submatrix e id = A := by
      rw [hcolumns, submatrix_mul_equiv, ht.mul_entries, submatrix_id_id]
    calc t.entries.submatrix e id
        = (u.basisColumns A)⁻¹ * (u.basisColumns A * t.entries.submatrix e id) :=
          (nonsing_inv_mul_cancel_left _ _ hunit).symm
      _ = u.entries := by rw [hmul, hu.entries_eq]
  exact ⟨e, fun i => ⟨hσ i, congrFun hentries i⟩⟩

/-- How much the clamp raises the value of each label when `q` enters in row `r`. -/
def raised (t : Tableau ℚ size labels) (r : Fin size) (q : Fin labels) : Fin labels → ℚ :=
  fun l => ∑ i with t.label i = l, t.raise r q i

/-- A row is left alone by the clamp or raised from below zero to zero. -/
theorem raise_cases (t : Tableau ℚ size labels) (r : Fin size) (q : Fin labels) (i : Fin size) :
    t.raise r q i = 0 ∨ t.level i - t.entries i q * t.ratio q r < 0 ∧
      (t.exchange r q).level i = 0 ∧
        t.raise r q i = -(t.level i - t.entries i q * t.ratio q r) := by
  rw [raise, exchange_level, Row.clamp_eq]
  split_ifs with hi hc
  · exact .inl rfl
  · exact .inr ⟨hc.2, rfl, zero_sub _⟩
  · exact .inl (sub_self _)

theorem mulVec_raised (A : Matrix (Fin size) (Fin labels) ℚ) (t : Tableau ℚ size labels)
    (r : Fin size) (q : Fin labels) :
    A *ᵥ t.raised r q = ∑ i, t.raise r q i • A.col (t.label i) := by
  funext k
  calc (A *ᵥ t.raised r q) k
      = ∑ l, A k l * ∑ i with t.label i = l, t.raise r q i := rfl
    _ = ∑ l, ∑ i with t.label i = l, A k l * t.raise r q i :=
        Finset.sum_congr rfl fun l _ => Finset.mul_sum _ _ _
    _ = ∑ l, ∑ i with t.label i = l, A k (t.label i) * t.raise r q i := by
        refine Finset.sum_congr rfl fun l _ => Finset.sum_congr rfl fun i hi => ?_
        rw [(Finset.mem_filter.mp hi).2]
    _ = ∑ i, A k (t.label i) * t.raise r q i := Finset.sum_fiberwise _ _ _
    _ = (∑ i, t.raise r q i • A.col (t.label i)) k := by
        simp only [Finset.sum_apply, Pi.smul_apply, smul_eq_mul, col_apply, mul_comm]

/-- A pivot adds to the right-hand side, for each row that the clamp raises, the column of its
label times the amount. -/
theorem InverseForm.rightSide_pivot_sum (h : InverseForm A t) {q : Fin labels}
    {x : Exchange ℚ size labels} (hx : t.pivot q.val = .ok x) :
    x.tableau.rightSide A = t.rightSide A + ∑ i, t.raise x.row q i • A.col (t.label i) := by
  have hsum : x.tableau.basisColumns A *ᵥ t.raise x.row q =
      ∑ i, t.raise x.row q i • A.col (t.label i) := by
    funext k
    simp only [mulVec, dotProduct, Finset.sum_apply, Pi.smul_apply, smul_eq_mul, col_apply]
    refine Finset.sum_congr rfl fun i _ => ?_
    -- the row that leaves has a new label, but nothing is raised there
    by_cases hi : i = x.row
    · simp [raise, hi]
    · rw [basisColumns, submatrix_apply, (pivot_label hx).2, Function.update_of_ne hi, id,
        mul_comm]
  rw [h.rightSide_pivot_add hx, hsum]

/-- The runs of successful pivots, with what the clamp has raised in each of them, the latest
first. -/
inductive Raises (t : Tableau ℚ size labels) :
    List (Fin labels → ℚ) → Tableau ℚ size labels → Prop
  | refl : t.Raises [] t
  | step {ds : List (Fin labels → ℚ)} {u : Tableau ℚ size labels} {q : Fin labels}
      {x : Exchange ℚ size labels} :
      t.Raises ds u → u.pivot q.val = .ok x → t.Raises (u.raised x.row q :: ds) x.tableau

theorem exists_raises_iff : (∃ ds, t.Raises ds u) ↔ t.Pivots u := by
  constructor
  · rintro ⟨ds, h⟩
    induction h with
    | refl => exact .refl
    | step _ hx ih => exact .step ih hx
  · intro h
    induction h with
    | refl => exact ⟨[], .refl⟩
    | @step u q x _ hx ih =>
      obtain ⟨ds, hrun⟩ := ih
      obtain ⟨hq, -⟩ := pivot_eq_ok_iff.mp hx
      exact ⟨_, hrun.step (q := ⟨q, hq⟩) hx⟩

theorem InverseForm.rightSide_of_raises (h : InverseForm A t) {ds : List (Fin labels → ℚ)}
    (hu : t.Raises ds u) : u.rightSide A = t.rightSide A + A *ᵥ ds.sum := by
  induction hu with
  | refl => rw [List.sum_nil, mulVec_zero, add_zero]
  | @step ds u q x hrun hx ih =>
    have hform := h.pivots (exists_raises_iff.mp ⟨ds, hrun⟩)
    rw [hform.rightSide_pivot_sum hx, ih, List.sum_cons, mulVec_add, mulVec_raised]
    abel

end Tableau

/-- The tableaus from which every path starts are of this kind. -/
theorem Game.unitBasis_initial {n m : ℕ} (g : Game ℚ n m) :
    g.rowTableau.UnitBasis ∧ g.columnTableau.UnitBasis :=
  ⟨g.inverseForm_rowTableau.unitBasis, g.inverseForm_columnTableau.unitBasis⟩

/-- A run of any length from a tableau whose basic columns are unit vectors, against that tableau as
the system.  The values solve the system for the first values, up to what the clamp has added. -/
theorem Tableau.basisInverse_of_raises {ds : List (Fin labels → ℚ)} (ht : t.UnitBasis)
    (hu : t.Raises ds u) :
    0 < (u.basisColumns t.entries).det ∧
      u.basisColumns t.entries * u.entries = t.entries ∧
      u.UnitBasis ∧
      Submodule.span ℚ (Set.range u.entries.row) = Submodule.span ℚ (Set.range t.entries.row) ∧
      (∀ w, t.Pivots w → w.basisSet = u.basisSet → ∃ σ : Equiv.Perm (Fin size),
        ∀ i, w.label (σ i) = u.label i ∧ w.entries (σ i) = u.entries i) ∧
      u.basisColumns t.entries *ᵥ u.level = t.level + t.entries *ᵥ ds.sum ∧
      ((∀ d ∈ ds, d = 0) → u.basisColumns t.entries *ᵥ u.level = t.level) ∧
      ∀ (q : Fin labels) (x : Exchange ℚ size labels), u.pivot q.val = .ok x →
        x.tableau.basisColumns t.entries *ᵥ x.tableau.level = u.basisColumns t.entries *ᵥ u.level +
          ∑ i, u.raise x.row q i • t.entries.col (u.label i) ∧
        ∀ i, u.raise x.row q i = 0 ∨ u.level i - u.entries i q * u.ratio q x.row < 0 ∧
          x.tableau.level i = 0 ∧
            u.raise x.row q i = -(u.level i - u.entries i q * u.ratio q x.row) := by
  have hpivots := exists_raises_iff.mp ⟨ds, hu⟩
  have hform : InverseForm t.entries u := ht.inverseForm.pivots hpivots
  have hside : u.rightSide t.entries = t.level + t.entries *ᵥ ds.sum := by
    rw [ht.inverseForm.rightSide_of_raises hu, ht.rightSide_eq]
  refine ⟨hform.det_pos, hform.mul_entries, hform.unitBasis, hform.span_rows, ?_, hside, ?_, ?_⟩
  · intro w hw hbasis
    exact (ht.inverseForm.pivots hw).exists_perm hform hbasis
  · intro hidle
    have hsum : ds.sum = 0 := List.sum_eq_zero hidle
    rw [hsum, mulVec_zero, add_zero] at hside
    exact hside
  · intro q x hx
    obtain ⟨_, -, -, htableau⟩ := pivot_eq_ok_iff.mp hx
    refine ⟨hform.rightSide_pivot_sum hx, fun i => ?_⟩
    rw [htableau]
    exact u.raise_cases x.row q i

open Game in
/-- Two pivots of which the second raises the value of label 1. -/
theorem Tableau.basisInverse_of_raises_nearTied :
    ∃ (u : Tableau ℚ 2 (2 + 2)) (c d : Fin (2 + 2) → ℚ), nearTied.rowTableau.UnitBasis ∧
      nearTied.rowTableau.Raises [d, c] u ∧ d 1 = 1 / 1099511627776 ∧
      0 < (u.basisColumns nearTied.rowTableau.entries).det ∧
      u.basisColumns nearTied.rowTableau.entries * u.entries = nearTied.rowTableau.entries ∧
      u.basisColumns nearTied.rowTableau.entries *ᵥ u.level =
        nearTied.rowTableau.level + nearTied.rowTableau.entries *ᵥ [d, c].sum := by
  have hunit := nearTied.unitBasis_initial.1
  have hfirst : nearTied.rowTableau.pivot 2 =
      .ok ⟨0, nearTied.rowTableau.label 0, nearTied.rowTableau.exchange 0 2⟩ :=
    pivot_eq_ok_iff.mpr ⟨by decide, by decide +kernel, by decide +kernel, rfl⟩
  have hsecond : (nearTied.rowTableau.exchange 0 2).pivot 3 =
      .ok ⟨0, (nearTied.rowTableau.exchange 0 2).label 0,
        (nearTied.rowTableau.exchange 0 2).exchange 0 3⟩ :=
    pivot_eq_ok_iff.mpr ⟨by decide, by decide +kernel, by decide +kernel, rfl⟩
  have hrun := Raises.step (q := 3) (.step (q := 2) .refl hfirst) hsecond
  obtain ⟨hdet, hmul, -, -, -, hside, -, -⟩ := basisInverse_of_raises hunit hrun
  exact ⟨_, _, _, hunit, hrun, by decide +kernel, hdet, hmul, hside⟩

end Bimatrix
