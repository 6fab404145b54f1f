import Mathlib
import Bimatrix.Proofs.Path.Orientation

/-! # Where a path ends

In exact arithmetic the basic columns of both tableaus have positive determinants, so a closed path
of sign minus one has left the bases from which it set out.  A label that has left its basis then
bounds the weights of the other player away from zero.
-/
namespace Bimatrix

open Matrix

variable {n m : ℕ}

theorem sign_eq_one_of_det_pos {τ : Equiv.Perm (Fin n)}
    (h : 0 < ((1 : Matrix (Fin n) (Fin n) ℚ).submatrix id τ).det) : Equiv.Perm.sign τ = 1 := by
  rw [det_permute', det_one, mul_one] at h
  rcases Int.units_eq_one_or (Equiv.Perm.sign τ) with hone | hneg
  · exact hone
  · rw [hneg] at h
    norm_num at h

namespace Pair

variable {p : Pair ℚ n (n + m) m (n + m)} {σ : Fin n ⊕ Fin m ≃ Fin (n + m)} {g : Game ℚ n m}

theorem Closed.columnBasis_eq_compl {α : Type} {p : Pair α n (n + m) m (n + m)} (h : p.Closed σ) :
    p.column.basisSet = p.row.basisSetᶜ := by
  ext l
  simp only [Finset.mem_compl, Tableau.mem_basisSet, Set.mem_range, not_exists]
  constructor
  · rintro ⟨j, rfl⟩ i hi
    rw [h.row, h.column] at hi
    exact Sum.inl_ne_inr (σ.injective hi)
  · intro hl
    obtain ⟨i | j, hij⟩ := σ.surjective l
    · exact absurd ((h.row i).trans hij) (hl i)
    · exact ⟨j, (h.column j).trans hij⟩

/-- If the row labels were basic in the row tableau again, the two bases would be permutations of
the first ones, both even. -/
theorem Closed.rowBasis_ne (h : p.Closed σ) (hsign : listingSign σ = -1)
    (hrow : Tableau.InverseForm g.rowSystem p.row)
    (hcolumn : Tableau.InverseForm g.columnSystem p.column) :
    p.row.basisSet ≠ rowLabels n m := by
  intro hbasis
  have hmaps : Set.MapsTo (σ.trans finSumFinEquiv.symm) (Set.range Sum.inl)
      (Set.range Sum.inl) := by
    rintro _ ⟨i, rfl⟩
    have hmem : p.row.label i ∈ rowLabels n m := by
      rw [← hbasis, Tableau.mem_basisSet]
      exact Set.mem_range_self i
    obtain ⟨k, -, hk⟩ := Finset.mem_image.mp hmem
    use k
    rw [Equiv.trans_apply, ← h.row, ← hk, finSumFinEquiv_symm_apply_castAdd]
  obtain ⟨⟨τ, υ⟩, hπ⟩ := Equiv.Perm.mem_sumCongrHom_range_of_perm_mapsTo_inl hmaps
  have hσ (x : Fin n ⊕ Fin m) : σ x = finSumFinEquiv (Equiv.Perm.sumCongr τ υ x) :=
    (Equiv.symm_apply_eq _).mp (DFunLike.congr_fun hπ x).symm
  have hτ : Equiv.Perm.sign τ = 1 := by
    apply sign_eq_one_of_det_pos
    apply lt_of_lt_of_eq hrow.det_pos
    apply congrArg det
    ext i k
    rw [Tableau.basisColumns, submatrix_apply, submatrix_apply, h.row, hσ]
    exact g.rowSystem_castAdd i (τ k)
  have hυ : Equiv.Perm.sign υ = 1 := by
    apply sign_eq_one_of_det_pos
    apply lt_of_lt_of_eq hcolumn.det_pos
    apply congrArg det
    ext j k
    rw [Tableau.basisColumns, submatrix_apply, submatrix_apply, h.column, hσ]
    exact g.columnSystem_natAdd j (υ k)
  have hpos : listingSign σ = 1 := by
    rw [listingSign, ← hπ, Equiv.Perm.sumCongrHom_apply, Equiv.Perm.sign_sumCongr, hτ, hυ, one_mul]
  rw [hpos] at hsign
  exact absurd hsign (by decide)

end Pair

/-- A basis other than a given one of its size leaves out one of its labels. -/
theorem Tableau.exists_notMem_range {size labels : ℕ} {t : Tableau ℚ size labels}
    (hinj : Function.Injective t.label) {F : Finset (Fin labels)} (hF : F.card = size)
    (h : t.basisSet ≠ F) : ∃ l ∈ F, l ∉ Set.range t.label := by
  by_contra hall
  push Not at hall
  have hsubset : F ⊆ t.basisSet := by
    intro l hl
    exact mem_basisSet.mpr (hall l hl)
  apply h
  apply (Finset.eq_of_subset_of_card_le hsubset _).symm
  rw [card_basisSet hinj, hF]

theorem half_le_sum {k : ℕ} {u x : Fin k → ℚ} (hu : ∀ j, u j ≤ 2) (hx : ∀ j, 0 ≤ x j)
    (h : 1 ≤ ∑ j, u j * x j) : 1 / 2 ≤ ∑ j, x j := by
  have hdouble : ∑ j, u j * x j ≤ 2 * ∑ j, x j := by
    rw [Finset.mul_sum]
    exact Finset.sum_le_sum fun j _ => mul_le_mul_of_nonneg_right (hu j) (hx j)
  linarith

namespace Game

variable {g : Game ℚ n m} {start : Fin n} {i : ℕ} {p : Pair ℚ n (n + m) m (n + m)}

theorem inverseForm_of_pairAt? (h : g.pairAt? start i = some p) :
    Tableau.InverseForm g.rowSystem p.row ∧ Tableau.InverseForm g.columnSystem p.column :=
  ⟨g.inverseForm_rowTableau.pivots (pivots_of_pairAt? h).1,
    g.inverseForm_columnTableau.pivots (pivots_of_pairAt? h).2⟩

/-- A pair of the path that misses no label has other bases than the first pair. -/
theorem basisSet_ne_of_gap_eq_nil (h : g.pairAt? start i = some p) (hgap : p.gap = []) :
    p.row.basisSet ≠ rowLabels n m ∧ p.column.basisSet ≠ columnLabels n m := by
  obtain ⟨hrow, hcolumn⟩ := inverseForm_of_pairAt? h
  obtain ⟨σ, hclosed, hsign⟩ := closed_of_gap_eq_nil h hgap
  have hne := hclosed.rowBasis_ne hsign hrow hcolumn
  constructor
  · exact hne
  rw [hclosed.columnBasis_eq_compl, columnLabels_eq_compl]
  exact compl_injective.ne hne

theorem value_nonneg_of_pairAt? (h : g.pairAt? start i = some p) (l : Fin (n + m)) :
    0 ≤ p.row.value l ∧ 0 ≤ p.column.value l := by
  obtain ⟨hrow, hcolumn⟩ := inverseForm_of_pairAt? h
  obtain ⟨hrowRun, hcolumnRun⟩ := pivots_of_pairAt? h
  constructor
  · apply Tableau.value_nonneg hrow.label_injective
    exact Tableau.level_nonneg_of_pivots (fun i => by simp [rowTableau_level]) hrowRun
  · apply Tableau.value_nonneg hcolumn.label_injective
    exact Tableau.level_nonneg_of_pivots (fun j => by simp [columnTableau_level]) hcolumnRun

/-- What the clamp adds to a right-hand side is never negative. -/
theorem one_le_mulVec_of_pairAt? (h : g.pairAt? start i = some p) :
    (∀ k, 1 ≤ (g.rowSystem *ᵥ p.row.value) k) ∧
      ∀ k, 1 ≤ (g.columnSystem *ᵥ p.column.value) k := by
  obtain ⟨hrow, hcolumn⟩ := inverseForm_of_pairAt? h
  obtain ⟨hrowRun, hcolumnRun⟩ := pivots_of_pairAt? h
  rw [Tableau.mulVec_value hrow.label_injective, Tableau.mulVec_value hcolumn.label_injective]
  constructor
  · intro k
    have hle := g.inverseForm_rowTableau.rightSide_le_of_pivots g.rowSystem_nonneg hrowRun k
    rw [rightSide_rowTableau, Pi.one_apply] at hle
    exact hle
  · intro k
    have hle := g.inverseForm_columnTableau.rightSide_le_of_pivots g.columnSystem_nonneg
      hcolumnRun k
    rw [rightSide_columnTableau, Pi.one_apply] at hle
    exact hle

/-- A row label that is not basic leaves its row of the system to the column player's weights. -/
theorem half_le_columnWeights (h : g.pairAt? start i = some p) (hgap : p.gap = []) :
    1 / 2 ≤ ∑ j : Fin m, p.row.value (j.natAdd n) := by
  obtain ⟨l, hl, hk⟩ := Tableau.exists_notMem_range
    (inverseForm_of_pairAt? h).1.label_injective card_rowLabels (basisSet_ne_of_gap_eq_nil h hgap).1
  obtain ⟨k, -, rfl⟩ := Finset.mem_image.mp hl
  have hone := (one_le_mulVec_of_pairAt? h).1 k
  rw [rowSystem_mulVec, Tableau.value_of_not_basic hk, zero_add] at hone
  exact half_le_sum (fun j => (g.normalizedRow_mem_Icc k j).2)
    (fun j => (value_nonneg_of_pairAt? h _).1) hone

theorem half_le_rowWeights (h : g.pairAt? start i = some p) (hgap : p.gap = []) :
    1 / 2 ≤ ∑ k : Fin n, p.column.value (k.castAdd m) := by
  obtain ⟨l, hl, hj⟩ := Tableau.exists_notMem_range
    (inverseForm_of_pairAt? h).2.label_injective card_columnLabels
    (basisSet_ne_of_gap_eq_nil h hgap).2
  obtain ⟨j, -, rfl⟩ := Finset.mem_image.mp hl
  have hone := (one_le_mulVec_of_pairAt? h).2 j
  rw [columnSystem_mulVec, Tableau.value_of_not_basic hj, add_zero] at hone
  exact half_le_sum (fun k => (g.normalizedColumn_mem_Icc k j).2)
    (fun k => (value_nonneg_of_pairAt? h _).2) hone

/-- The totals are not zero, so the weights are divided by them. -/
theorem distribution_rowWeights_get (h : g.pairAt? start i = some p) (hgap : p.gap = [])
    (k : Fin n) : (distribution p.rowWeights).get k =
      p.column.value (k.castAdd m) / ∑ l : Fin n, p.column.value (l.castAdd m) := by
  have hhalf := half_le_rowWeights h hgap
  rw [distribution_get] <;> simp only [Pair.rowWeights, get_ofFn]
  linarith

theorem distribution_columnWeights_get (h : g.pairAt? start i = some p) (hgap : p.gap = [])
    (j : Fin m) : (distribution p.columnWeights).get j =
      p.row.value (j.natAdd n) / ∑ l : Fin m, p.row.value (l.natAdd n) := by
  have hhalf := half_le_columnWeights h hgap
  rw [distribution_get] <;> simp only [Pair.columnWeights, get_ofFn]
  linarith

end Game

/-- A run that succeeds stops at other bases than the first ones, with totals that are not zero. -/
theorem Solver.weights_of_solve {s : Solver} {g : Game ℚ n m} {e : Equilibrium ℚ n m}
    (h : s.solve g = .ok e) : ∃ p, g.lastPair? e.start s.bound.toNat = some p ∧
      p.row.basisSet ≠ rowLabels n m ∧ p.column.basisSet ≠ columnLabels n m ∧
      1 / 2 ≤ ∑ i : Fin n, p.column.value (i.castAdd m) ∧
      1 / 2 ≤ ∑ j : Fin m, p.row.value (j.natAdd n) ∧
      (∀ i, e.profile.row.get i =
        p.column.value (i.castAdd m) / ∑ k : Fin n, p.column.value (k.castAdd m)) ∧
      ∀ j, e.profile.column.get j =
        p.row.value (j.natAdd n) / ∑ k : Fin m, p.row.value (k.natAdd n) := by
  obtain ⟨p, hstart, hlast, hp, hgap, hprofile⟩ := exists_lastPair_of_solve h
  replace hp : g.pairAt? (⟨e.start, hstart⟩ : Fin n) e.pivots = some p := hp
  obtain ⟨hrow, hcolumn⟩ := Game.basisSet_ne_of_gap_eq_nil hp hgap
  rw [hprofile]
  exact ⟨p, hlast, hrow, hcolumn, Game.half_le_rowWeights hp hgap,
    Game.half_le_columnWeights hp hgap, Game.distribution_rowWeights_get hp hgap,
    Game.distribution_columnWeights_get hp hgap⟩

theorem Solver.weights_of_solve_twoBestResponses :
    Solver.solve {} Game.twoBestResponses = .ok ⟨⟨#v[0, 1], #v[1 / 3, 2 / 3]⟩, 0, 3⟩ ∧
      ∃ p, Game.twoBestResponses.lastPair? 0 1000 = some p ∧
        p.row.basisSet ≠ rowLabels 2 2 ∧ p.column.basisSet ≠ columnLabels 2 2 ∧
        1 / 2 ≤ ∑ i : Fin 2, p.column.value (i.castAdd 2) ∧
        1 / 2 ≤ ∑ j : Fin 2, p.row.value (j.natAdd 2) ∧
        (∀ i, (#v[0, 1] : Vector ℚ 2).get i =
          p.column.value (i.castAdd 2) / ∑ k : Fin 2, p.column.value (k.castAdd 2)) ∧
        ∀ j, (#v[1 / 3, 2 / 3] : Vector ℚ 2).get j =
          p.row.value (j.natAdd 2) / ∑ k : Fin 2, p.row.value (k.natAdd 2) := by
  have hsolve : Solver.solve {} Game.twoBestResponses =
      .ok ⟨⟨#v[0, 1], #v[1 / 3, 2 / 3]⟩, 0, 3⟩ := by cbv
  exact ⟨hsolve, weights_of_solve hsolve⟩

end Bimatrix
