import Mathlib.Tactic
import Bimatrix.Proofs.Equilibrium
import Bimatrix.Proofs.Game.Invariance

/-! # Regret

What a mix falls short of the best payoff is the mean of what the strategies that it plays fall
short.  A small mean keeps every strategy with a probability above the tolerance close to the best;
where all of these are close, the others weigh too little to make the mean large.
-/
namespace Bimatrix

variable {n m : ℕ}

def shortfall (mix payoffs : Vector ℚ n) : ℚ :=
  Scalar.largest payoffs.toList - ∑ i, mix.get i * payoffs.get i

section Shortfall

variable {mix payoffs : Vector ℚ n} {ε slack spread : ℚ}

theorem Scalar.le_largest (v : Vector ℚ n) (i : Fin n) : v.get i ≤ largest v.toList :=
  (largest_le_iff i).mp le_rfl i

theorem IsDistribution.shortfall_eq (h : IsDistribution mix) (payoffs : Vector ℚ n) :
    shortfall mix payoffs =
      ∑ i, mix.get i * (Scalar.largest payoffs.toList - payoffs.get i) := by
  simp only [mul_sub]
  rw [Finset.sum_sub_distrib, ← Finset.sum_mul, h.sum_eq_one, one_mul]
  rfl

theorem IsDistribution.term_nonneg (h : IsDistribution mix) (payoffs : Vector ℚ n) (i : Fin n) :
    0 ≤ mix.get i * (Scalar.largest payoffs.toList - payoffs.get i) :=
  mul_nonneg (h.nonneg i) (sub_nonneg.mpr (Scalar.le_largest payoffs i))

theorem IsDistribution.shortfall_nonneg (h : IsDistribution mix) (payoffs : Vector ℚ n) :
    0 ≤ shortfall mix payoffs := by
  rw [h.shortfall_eq]
  exact Finset.sum_nonneg fun i _ => h.term_nonneg payoffs i

/-- No strategy falls short by more than the mean over its probability. -/
theorem IsDistribution.isBestResponse_of_shortfall_le (h : IsDistribution mix) (hε : 0 ≤ ε)
    (hslack : 0 ≤ slack) (hle : shortfall mix payoffs ≤ ε * slack) :
    Game.isBestResponse mix payoffs ε slack = true := by
  rw [Game.isBestResponse_iff]
  intro i
  by_contra hnot
  push Not at hnot
  obtain ⟨hplayed, k, hk⟩ := hnot
  have hgap : slack < Scalar.largest payoffs.toList - payoffs.get i := by
    linarith [Scalar.le_largest payoffs k]
  have hterm : mix.get i * (Scalar.largest payoffs.toList - payoffs.get i) ≤
      shortfall mix payoffs := by
    rw [h.shortfall_eq]
    exact Finset.single_le_sum (fun i _ => h.term_nonneg payoffs i) (Finset.mem_univ i)
  have hlarge : ε * slack < mix.get i * (Scalar.largest payoffs.toList - payoffs.get i) :=
    calc ε * slack ≤ ε * (Scalar.largest payoffs.toList - payoffs.get i) :=
          mul_le_mul_of_nonneg_left hgap.le hε
      _ < mix.get i * (Scalar.largest payoffs.toList - payoffs.get i) :=
          mul_lt_mul_of_pos_right hplayed (hslack.trans_lt hgap)
  linarith

/-- The strategies with a probability above the tolerance fall short by the slack at most, the
others by the spread of the payoffs. -/
theorem IsDistribution.shortfall_le_of_isBestResponse (h : IsDistribution mix) (hε : 0 ≤ ε)
    (hslack : 0 ≤ slack)
    (hspread : ∀ i, Scalar.largest payoffs.toList - payoffs.get i ≤ spread)
    (hbest : Game.isBestResponse mix payoffs ε slack = true) :
    shortfall mix payoffs ≤ slack + n * (ε * spread) := by
  have hterm (i : Fin n) : mix.get i * (Scalar.largest payoffs.toList - payoffs.get i) ≤
      mix.get i * slack + ε * spread := by
    have hnonneg : 0 ≤ Scalar.largest payoffs.toList - payoffs.get i :=
      sub_nonneg.mpr (Scalar.le_largest payoffs i)
    have hweight := mul_nonneg (h.nonneg i) hslack
    have hrest := mul_nonneg hε (hnonneg.trans (hspread i))
    obtain hrare | hclose := Game.isBestResponse_iff.mp hbest i
    · have hle := mul_le_mul hrare (hspread i) hnonneg hε
      linarith
    · have hle : Scalar.largest payoffs.toList ≤ payoffs.get i + slack :=
        (Scalar.largest_le_iff i).mpr hclose
      have hmul := mul_le_mul_of_nonneg_left (sub_le_iff_le_add'.mpr hle) (h.nonneg i)
      linarith
  calc shortfall mix payoffs
      = ∑ i, mix.get i * (Scalar.largest payoffs.toList - payoffs.get i) := h.shortfall_eq payoffs
    _ ≤ ∑ i, (mix.get i * slack + ε * spread) := Finset.sum_le_sum fun i _ => hterm i
    _ = slack + n * (ε * spread) := by
        rw [Finset.sum_add_distrib, ← Finset.sum_mul, h.sum_eq_one, one_mul, Finset.sum_const,
          Finset.card_univ, Fintype.card_fin, nsmul_eq_mul]

end Shortfall

namespace Game

variable (g : Game ℚ n m) {s : Profile ℚ n m} {ε : ℚ}

theorem rowRegret_eq (s : Profile ℚ n m) : g.rowRegret s = shortfall s.row (g.rowPayoffs s) := by
  have hpayoff : g.rowPayoff s = ∑ i, s.row.get i * (g.rowPayoffs s).get i := by
    rw [rowPayoff, expected, Summation.dot_eq_sum]
    apply Finset.sum_congr rfl
    intro i _
    rw [mul_comm]
    rfl
  rw [shortfall, ← hpayoff]
  rfl

/-- The expected payoff is computed row by row, the payoffs of the columns column by column. -/
theorem columnRegret_eq (s : Profile ℚ n m) :
    g.columnRegret s = shortfall s.column (g.columnPayoffs s) := by
  have hpayoff : g.columnPayoff s = ∑ j, s.column.get j * (g.columnPayoffs s).get j :=
    calc g.columnPayoff s
        = ∑ i, (∑ j, g.column.entry i j * s.column.get j) * s.row.get i := by
          rw [columnPayoff, expected, Summation.dot_eq_sum]
          apply Finset.sum_congr rfl
          intro i _
          rw [get_map, Summation.dot_eq_sum]
          rfl
      _ = ∑ j, ∑ i, s.column.get j * (g.column.entry i j * s.row.get i) := by
          rw [Finset.sum_comm]
          apply Finset.sum_congr rfl
          intro i _
          rw [Finset.sum_mul]
          apply Finset.sum_congr rfl
          intro j _
          ring
      _ = ∑ j, s.column.get j * (g.columnPayoffs s).get j := by
          simp only [columnPayoffs_get, Finset.mul_sum]
  rw [shortfall, ← hpayoff]
  rfl

theorem max?_magnitudes : (0 :: g.payoffs.map Scalar.abs).max? = some g.scale := by
  have hmax : (Scalar.larger : ℚ → ℚ → ℚ) = max := funext₂ Scalar.larger_eq_max
  rw [List.max?_cons', scale, hmax]

theorem scale_nonneg : 0 ≤ g.scale :=
  (List.max?_eq_some_iff.mp g.max?_magnitudes).2 0 List.mem_cons_self

theorem abs_le_scale {u : ℚ} (hu : u ∈ g.payoffs) : |u| ≤ g.scale := by
  rw [← Scalar.abs_eq]
  exact (List.max?_eq_some_iff.mp g.max?_magnitudes).2 _
    (List.mem_cons_of_mem _ (List.mem_map_of_mem hu))

end Game

/-- The mean of numbers of bounded magnitude. -/
theorem IsDistribution.abs_sum_le {mix : Vector ℚ n} (h : IsDistribution mix) {u : Fin n → ℚ}
    {bound : ℚ} (hu : ∀ i, |u i| ≤ bound) : |∑ i, u i * mix.get i| ≤ bound :=
  calc |∑ i, u i * mix.get i|
      ≤ ∑ i, |u i * mix.get i| := Finset.abs_sum_le_sum_abs _ _
    _ = ∑ i, |u i| * mix.get i := by
        apply Finset.sum_congr rfl
        intro i _
        rw [abs_mul, abs_of_nonneg (h.nonneg i)]
    _ ≤ ∑ i, bound * mix.get i :=
        Finset.sum_le_sum fun i _ => mul_le_mul_of_nonneg_right (hu i) (h.nonneg i)
    _ = bound := by rw [← Finset.mul_sum, h.sum_eq_one, mul_one]

theorem Scalar.largest_sub_le {v : Vector ℚ n} {bound : ℚ} (hv : ∀ i, |v.get i| ≤ bound)
    (i : Fin n) : largest v.toList - v.get i ≤ 2 * bound := by
  have hlargest : largest v.toList ≤ bound :=
    (largest_le_iff i).mpr fun k => (abs_le.mp (hv k)).2
  linarith [(abs_le.mp (hv i)).1]

namespace Game

variable (g : Game ℚ n m) {s : Profile ℚ n m} {ε : ℚ}

theorem abs_rowPayoffs_le (h : IsDistribution s.column) (i : Fin n) :
    |(g.rowPayoffs s).get i| ≤ g.scale := by
  rw [rowPayoffs_get]
  exact h.abs_sum_le fun j => g.abs_le_scale (g.row_entry_mem_payoffs i j)

theorem abs_columnPayoffs_le (h : IsDistribution s.row) (j : Fin m) :
    |(g.columnPayoffs s).get j| ≤ g.scale := by
  rw [columnPayoffs_get]
  exact h.abs_sum_le fun i => g.abs_le_scale (g.column_entry_mem_payoffs i j)

theorem isEquilibrium_of_regret_le (hrow : IsDistribution s.row) (hcolumn : IsDistribution s.column)
    (hε : 0 ≤ ε) (hrowRegret : g.rowRegret s ≤ ε * ε * g.scale)
    (hcolumnRegret : g.columnRegret s ≤ ε * ε * g.scale) : g.isEquilibrium s ε = true := by
  rw [rowRegret_eq, mul_assoc] at hrowRegret
  rw [columnRegret_eq, mul_assoc] at hcolumnRegret
  have hslack := mul_nonneg hε g.scale_nonneg
  exact (Bool.and_eq_true _ _).mpr
    ⟨hrow.isBestResponse_of_shortfall_le hε hslack hrowRegret,
      hcolumn.isBestResponse_of_shortfall_le hε hslack hcolumnRegret⟩

theorem regret_le_of_isEquilibrium (hrow : IsDistribution s.row) (hcolumn : IsDistribution s.column)
    (hε : 0 ≤ ε) (h : g.isEquilibrium s ε = true) :
    g.rowRegret s ≤ (1 + 2 * n) * ε * g.scale ∧
      g.columnRegret s ≤ (1 + 2 * m) * ε * g.scale := by
  obtain ⟨hrowBest, hcolumnBest⟩ := (Bool.and_eq_true _ _).mp h
  have hslack := mul_nonneg hε g.scale_nonneg
  constructor
  · rw [rowRegret_eq]
    have hle := hrow.shortfall_le_of_isBestResponse hε hslack
      (Scalar.largest_sub_le (g.abs_rowPayoffs_le hcolumn)) hrowBest
    linarith
  · rw [columnRegret_eq]
    have hle := hcolumn.shortfall_le_of_isBestResponse hε hslack
      (Scalar.largest_sub_le (g.abs_columnPayoffs_le hrow)) hcolumnBest
    linarith

/-- For distributions, regrets are not negative; regrets of at most the square of a tolerance pass
the test with that tolerance; and what passes it has regrets of at most a multiple of the
tolerance, all relative to the scale of the game.  So the exact test asks for no regret. -/
theorem regret_isEquilibrium_bounds (s : Profile ℚ n m) (hrow : IsDistribution s.row)
    (hcolumn : IsDistribution s.column) (ε : ℚ) (hε : 0 ≤ ε) :
    0 ≤ g.rowRegret s ∧ 0 ≤ g.columnRegret s ∧
      (g.rowRegret s ≤ ε * ε * g.scale → g.columnRegret s ≤ ε * ε * g.scale →
        g.isEquilibrium s ε = true) ∧
      (g.isEquilibrium s ε = true → g.rowRegret s ≤ (1 + 2 * n) * ε * g.scale ∧
        g.columnRegret s ≤ (1 + 2 * m) * ε * g.scale) ∧
      (g.isEquilibrium s 0 = true ↔ g.rowRegret s = 0 ∧ g.columnRegret s = 0) := by
  have hrowNonneg : 0 ≤ g.rowRegret s := by
    rw [rowRegret_eq]
    exact hrow.shortfall_nonneg _
  have hcolumnNonneg : 0 ≤ g.columnRegret s := by
    rw [columnRegret_eq]
    exact hcolumn.shortfall_nonneg _
  refine ⟨hrowNonneg, hcolumnNonneg, g.isEquilibrium_of_regret_le hrow hcolumn hε,
    g.regret_le_of_isEquilibrium hrow hcolumn hε, ?_⟩
  constructor
  · intro h
    obtain ⟨hrowLe, hcolumnLe⟩ := g.regret_le_of_isEquilibrium hrow hcolumn le_rfl h
    rw [mul_zero, zero_mul] at hrowLe hcolumnLe
    exact ⟨hrowLe.antisymm hrowNonneg, hcolumnLe.antisymm hcolumnNonneg⟩
  · rintro ⟨hrowZero, hcolumnZero⟩
    apply g.isEquilibrium_of_regret_le hrow hcolumn le_rfl
    · rw [hrowZero, mul_zero, zero_mul]
    · rw [hcolumnZero, mul_zero, zero_mul]

/-- A profile near the mixed equilibrium, which has a little weight on a worse column. -/
theorem regret_isEquilibrium_bounds_fivePivots :
    IsDistribution (#v[2 / 3, 1 / 3] : Vector ℚ 2) ∧
      IsDistribution (#v[1 / 20, 11 / 20, 2 / 5] : Vector ℚ 3) ∧ (0 : ℚ) ≤ 3 / 20 ∧
      fivePivots.rowRegret ⟨#v[2 / 3, 1 / 3], #v[1 / 20, 11 / 20, 2 / 5]⟩ = 1 / 12 ∧
      fivePivots.columnRegret ⟨#v[2 / 3, 1 / 3], #v[1 / 20, 11 / 20, 2 / 5]⟩ = 1 / 20 ∧
      fivePivots.isEquilibrium ⟨#v[2 / 3, 1 / 3], #v[1 / 20, 11 / 20, 2 / 5]⟩ (3 / 20) = true ∧
      fivePivots.isEquilibrium ⟨#v[2 / 3, 1 / 3], #v[1 / 20, 11 / 20, 2 / 5]⟩ 0 = false := by
  have hrow : IsDistribution (#v[2 / 3, 1 / 3] : Vector ℚ 2) :=
    ⟨by decide +kernel, by decide +kernel⟩
  have hcolumn : IsDistribution (#v[1 / 20, 11 / 20, 2 / 5] : Vector ℚ 3) :=
    ⟨by decide +kernel, by decide +kernel⟩
  have hε : (0 : ℚ) ≤ 3 / 20 := by norm_num
  have hrowRegret :
      fivePivots.rowRegret ⟨#v[2 / 3, 1 / 3], #v[1 / 20, 11 / 20, 2 / 5]⟩ = 1 / 12 := by
    decide +kernel
  have hcolumnRegret :
      fivePivots.columnRegret ⟨#v[2 / 3, 1 / 3], #v[1 / 20, 11 / 20, 2 / 5]⟩ = 1 / 20 := by
    decide +kernel
  have hscale : fivePivots.scale = 4 := by decide +kernel
  obtain ⟨-, -, hsmall, -, hexact⟩ := fivePivots.regret_isEquilibrium_bounds
    ⟨#v[2 / 3, 1 / 3], #v[1 / 20, 11 / 20, 2 / 5]⟩ hrow hcolumn (3 / 20) hε
  refine ⟨hrow, hcolumn, hε, hrowRegret, hcolumnRegret, hsmall ?_ ?_, ?_⟩
  · rw [hrowRegret, hscale]
    norm_num
  · rw [hcolumnRegret, hscale]
    norm_num
  · rw [Bool.eq_false_iff, Ne, hexact, hrowRegret]
    exact fun h => absurd h.1 (by norm_num)

end Game

end Bimatrix
