import Mathlib
import Bimatrix.Proofs.Path.Sides

/-! # Equilibria

While the clamp is idle the values of both tableaus solve the systems of the game.  Where no label
is missing any more, a label with a positive value in one tableau is not basic in the other, so its
row of the other system is tight: a strategy that is played earns as much as any other.
-/
namespace Bimatrix

open Matrix

variable {n m : ℕ}

structure IsDistribution (mix : Vector ℚ n) : Prop where
  nonneg : ∀ i, 0 ≤ mix.get i
  sum_eq_one : ∑ i, mix.get i = 1

theorem isDistribution_of_weights {mix : Vector ℚ n} {w : Fin n → ℚ} (hw : ∀ i, 0 ≤ w i)
    (hsum : 0 < ∑ i, w i) (hmix : ∀ i, mix.get i = w i / ∑ k, w k) : IsDistribution mix where
  nonneg i := by
    rw [hmix]
    exact div_nonneg (hw i) hsum.le
  sum_eq_one := by
    simp only [hmix]
    rw [← Finset.sum_div, div_self hsum.ne']

namespace Game

def rowExpectation (g : Game ℚ n m) (s : Profile ℚ n m) (i : Fin n) : ℚ :=
  ∑ j, g.row.entry i j * s.column.get j

def columnExpectation (g : Game ℚ n m) (s : Profile ℚ n m) (j : Fin m) : ℚ :=
  ∑ i, g.column.entry i j * s.row.get i

/-- Two distributions, each of which plays best responses to the other only. -/
structure IsNash (g : Game ℚ n m) (s : Profile ℚ n m) : Prop where
  row : IsDistribution s.row
  column : IsDistribution s.column
  row_best : ∀ i, 0 < s.row.get i → ∀ k, g.rowExpectation s k ≤ g.rowExpectation s i
  column_best : ∀ j, 0 < s.column.get j → ∀ k, g.columnExpectation s k ≤ g.columnExpectation s j

/-- Two distributions, each of which plays only responses to the other that are best up to
`slack`. -/
structure IsNearNash (g : Game ℚ n m) (s : Profile ℚ n m) (slack : ℚ) : Prop where
  row : IsDistribution s.row
  column : IsDistribution s.column
  row_near : ∀ i, 0 < s.row.get i → ∀ k, g.rowExpectation s k ≤ g.rowExpectation s i + slack
  column_near : ∀ j, 0 < s.column.get j →
    ∀ k, g.columnExpectation s k ≤ g.columnExpectation s j + slack

theorem IsNearNash.isNash {g : Game ℚ n m} {s : Profile ℚ n m} (h : g.IsNearNash s 0) :
    g.IsNash s where
  row := h.row
  column := h.column
  row_best i hi k := (h.row_near i hi k).trans_eq (add_zero _)
  column_best j hj k := (h.column_near j hj k).trans_eq (add_zero _)

end Game

/-- Payoffs whose differences are `scale` times as large differ so in expectation, where weights of
at least one half in total are divided by their total. -/
theorem expectation_le_add {k : ℕ} {scale slack : ℚ} {u v u' v' w mix : Fin k → ℚ}
    (hscale : 0 ≤ scale) (hslack : 0 ≤ slack) (huv : ∀ j, u j - v j = scale * (u' j - v' j))
    (hhalf : 1 / 2 ≤ ∑ j, w j) (hmix : ∀ j, mix j = w j / ∑ l, w l)
    (h : ∑ j, u' j * w j ≤ ∑ j, v' j * w j + slack) :
    ∑ j, u j * mix j ≤ ∑ j, v j * mix j + 2 * slack * scale := by
  have hsum : 0 < ∑ j, w j := lt_of_lt_of_le one_half_pos hhalf
  have hdiff : (∑ j, u j * mix j - ∑ j, v j * mix j) * ∑ j, w j =
      scale * (∑ j, u' j * w j - ∑ j, v' j * w j) := by
    rw [← Finset.sum_sub_distrib, ← Finset.sum_sub_distrib, Finset.sum_mul, Finset.mul_sum]
    apply Finset.sum_congr rfl
    intro j _
    rw [hmix, ← sub_mul, huv]
    field_simp
  have hbound : (∑ j, u j * mix j - ∑ j, v j * mix j) * ∑ j, w j ≤
      2 * slack * scale * ∑ j, w j :=
    calc (∑ j, u j * mix j - ∑ j, v j * mix j) * ∑ j, w j
        ≤ scale * slack := by
          rw [hdiff]
          exact mul_le_mul_of_nonneg_left (by linarith) hscale
      _ = 2 * slack * scale * (1 / 2) := by ring
      _ ≤ 2 * slack * scale * ∑ j, w j :=
        mul_le_mul_of_nonneg_left hhalf (by positivity)
  linarith [le_of_mul_le_mul_right hbound hsum]

namespace Pair

variable {p : Pair ℚ n (n + m) m (n + m)} {σ : Fin n ⊕ Fin m ≃ Fin (n + m)}

def ClampIdle (p : Pair ℚ n (n + m) m (n + m)) (side : Player) : Prop :=
  ∀ q : Fin (n + m), p.gap.head? = some q.val →
    match side with
    | .row => p.row.ClampIdle q
    | .column => p.column.ClampIdle q

instance (p : Pair ℚ n (n + m) m (n + m)) (side : Player) : Decidable (p.ClampIdle side) := by
  cases side <;> exact inferInstanceAs (Decidable (∀ _, _ → Tableau.ClampIdle _ _))

theorem ClampIdle.tableau {p : Pair ℚ n (n + m) m (n + m)} {side : Player} {q : Fin (n + m)}
    (h : p.ClampIdle side) (hq : p.gap.head? = some q.val) : (p.tableau side).ClampIdle q := by
  cases side with
  | row => exact h q hq
  | column => exact h q hq

/-- No label is basic on both sides. -/
theorem Closed.value_eq_zero (h : p.Closed σ) (l : Fin (n + m)) :
    p.row.value l = 0 ∨ p.column.value l = 0 := by
  by_cases hl : l ∈ p.row.basisSet
  · have hnot : l ∉ p.column.basisSet := by
      rw [h.columnBasis_eq_compl, Finset.mem_compl]
      exact not_not.mpr hl
    exact .inr (Tableau.value_of_not_basic (Tableau.mem_basisSet.not.mp hnot))
  · exact .inl (Tableau.value_of_not_basic (Tableau.mem_basisSet.not.mp hl))

end Pair

namespace Game

variable {g : Game ℚ n m} {start : Fin n} {i : ℕ} {p : Pair ℚ n (n + m) m (n + m)}

/-- The clamp changes no value in the warm start and in any pivot of the path. -/
structure ClampIdle (g : Game ℚ n m) (start : ℕ) : Prop where
  warmStart : ∀ q : Fin (n + m), q.val = start → g.columnTableau.ClampIdle q
  pivot : ∀ i p, g.pairAt? start i = some p → p.ClampIdle (Player.turn i)

/-- It is enough to look at the pairs up to the end of the path. -/
theorem clampIdle_of_pairAt?_eq_none {start : ℕ} (length : ℕ)
    (hwarm : ∀ q : Fin (n + m), q.val = start → g.columnTableau.ClampIdle q)
    (hpath : ∀ i < length, ∀ p ∈ g.pairAt? start i, p.ClampIdle (Player.turn i))
    (hend : g.pairAt? start length = none) : g.ClampIdle start where
  warmStart := hwarm
  pivot i p h := hpath i (lt_of_pairAt?_eq_none hend h) p h

theorem ClampIdle.of_performs (hidle : g.ClampIdle start) {k : ℕ} {side : Player}
    {t : Tableau ℚ (side.size n m) (n + m)} {q : Fin (n + m)}
    {x : Exchange ℚ (side.size n m) (n + m)} (h : g.Performs start k side t q x) :
    t.ClampIdle q := by
  cases h with
  | warmStart _ => exact hidle.warmStart _ rfl
  | move hp hq _ => exact (hidle.pivot _ _ hp).tableau hq

/-- The values of a path on which the clamp is idle solve both systems. -/
theorem mulVec_value_of_pairAt? (hidle : g.ClampIdle start) (h : g.pairAt? start i = some p) :
    g.rowSystem *ᵥ p.row.value = 1 ∧ g.columnSystem *ᵥ p.column.value = 1 := by
  have hside (side : Player) : (p.tableau side).rightSide (g.system side) = 1 := by
    refine tableau_invariant (motive := fun _ side t => t.rightSide (g.system side) = 1)
      g.rightSide_initial ?_ ?_ h side
    · intro _ _ _ hexact
      exact hexact
    · intro _ _ _ _ _ hperforms hexact
      rw [hperforms.inverseForm.rightSide_pivot hperforms.pivot_eq (hidle.of_performs hperforms)]
      exact hexact
  constructor
  · exact (mulVec_value_tableau h .row).trans (hside .row)
  · exact (mulVec_value_tableau h .column).trans (hside .column)

variable {σ : Fin n ⊕ Fin m ≃ Fin (n + m)} {ρ : ℚ}

/-- A row with a positive weight is tight in the row system, and no row exceeds its right-hand
side. -/
theorem normalizedRow_le_add (h : g.pairAt? start i = some p) (hclosed : p.Closed σ)
    (hρ : ∀ l, (g.rowSystem *ᵥ p.row.value) l ≤ ρ) {k : Fin n}
    (hk : 0 < p.column.value (k.castAdd m)) (l : Fin n) :
    ∑ j, g.normalizedRow.entry l j * p.row.value (j.natAdd n) ≤
      ∑ j, g.normalizedRow.entry k j * p.row.value (j.natAdd n) + (ρ - 1) := by
  have htight := (hclosed.value_eq_zero _).resolve_right hk.ne'
  have hslack := (value_nonneg_of_pairAt? h (l.castAdd m)).1
  have hone := (one_le_mulVec_of_pairAt? h).1 k
  have hle := hρ l
  rw [rowSystem_mulVec] at hone hle
  linarith

theorem normalizedColumn_le_add (h : g.pairAt? start i = some p) (hclosed : p.Closed σ)
    (hρ : ∀ l, (g.columnSystem *ᵥ p.column.value) l ≤ ρ) {k : Fin m}
    (hk : 0 < p.row.value (k.natAdd n)) (l : Fin m) :
    ∑ j, g.normalizedColumn.entry j l * p.column.value (j.castAdd m) ≤
      ∑ j, g.normalizedColumn.entry j k * p.column.value (j.castAdd m) + (ρ - 1) := by
  have htight := (hclosed.value_eq_zero _).resolve_left hk.ne'
  have hslack := (value_nonneg_of_pairAt? h (l.natAdd n)).2
  have hone := (one_le_mulVec_of_pairAt? h).2 k
  have hle := hρ l
  rw [columnSystem_mulVec] at hone hle
  linarith

/-- What the values at a closed pair solve too much for costs at most twice that in payoffs. -/
theorem isNearNash_of_pairAt? (h : g.pairAt? start i = some p) (hgap : p.gap = [])
    (hrow : ∀ l, (g.rowSystem *ᵥ p.row.value) l ≤ ρ)
    (hcolumn : ∀ l, (g.columnSystem *ᵥ p.column.value) l ≤ ρ) {low high : ℚ}
    (hrange : ∀ u ∈ g.payoffs, u ∈ Set.Icc low high) :
    g.IsNearNash ⟨distribution p.rowWeights, distribution p.columnWeights⟩
      (2 * (ρ - 1) * (high - low)) := by
  obtain ⟨σ, hclosed, -⟩ := closed_of_gap_eq_nil h hgap
  obtain ⟨scale, hscale, hle, hrowSub, hcolumnSub⟩ := g.exists_payoff_sub_eq hrange
  have hrowGet := distribution_rowWeights_get h hgap
  have hcolumnGet := distribution_columnWeights_get h hgap
  have hrowHalf := half_le_rowWeights h hgap
  have hcolumnHalf := half_le_columnWeights h hgap
  have hrowSum := lt_of_lt_of_le one_half_pos hrowHalf
  have hcolumnSum := lt_of_lt_of_le one_half_pos hcolumnHalf
  have hslack : 0 ≤ ρ - 1 :=
    sub_nonneg.mpr (((one_le_mulVec_of_pairAt? h).1 ⟨0, g.rows_pos⟩).trans (hrow _))
  have hcost : 2 * (ρ - 1) * scale ≤ 2 * (ρ - 1) * (high - low) :=
    mul_le_mul_of_nonneg_left hle (by positivity)
  constructor
  · exact isDistribution_of_weights (fun k => (value_nonneg_of_pairAt? h _).2) hrowSum hrowGet
  · exact isDistribution_of_weights (fun k => (value_nonneg_of_pairAt? h _).1) hcolumnSum
      hcolumnGet
  · intro k hk l
    have hweight : 0 < p.column.value (k.castAdd m) := by
      rw [hrowGet] at hk
      exact (div_pos_iff_of_pos_right hrowSum).mp hk
    exact (expectation_le_add hscale hslack (hrowSub l k) hcolumnHalf hcolumnGet
      (normalizedRow_le_add h hclosed hrow hweight l)).trans (add_le_add_right hcost _)
  · intro k hk l
    have hweight : 0 < p.row.value (k.natAdd n) := by
      rw [hcolumnGet] at hk
      exact (div_pos_iff_of_pos_right hcolumnSum).mp hk
    exact (expectation_le_add hscale hslack (fun j => hcolumnSub j l k) hrowHalf hrowGet
      (normalizedColumn_le_add h hclosed hcolumn hweight l)).trans (add_le_add_right hcost _)

theorem isNash_of_pairAt? (hidle : g.ClampIdle start) (h : g.pairAt? start i = some p)
    (hgap : p.gap = []) :
    g.IsNash ⟨distribution p.rowWeights, distribution p.columnWeights⟩ := by
  obtain ⟨hrow, hcolumn⟩ := mulVec_value_of_pairAt? hidle h
  obtain ⟨low, high, hrange⟩ := g.exists_payoffs_mem_Icc
  have hnear : g.IsNearNash _ (2 * (1 - 1) * (high - low)) :=
    isNearNash_of_pairAt? h hgap (fun l => (congrFun hrow l).le) (fun l => (congrFun hcolumn l).le)
      hrange
  rw [sub_self, mul_zero, zero_mul] at hnear
  exact hnear.isNash

end Game

/-- What a run returns is an equilibrium when no pivot of the run had a value clamped. -/
theorem Solver.isNash_of_solve {s : Solver} {g : Game ℚ n m} {e : Equilibrium ℚ n m}
    (h : s.solve g = .ok e) (hidle : g.ClampIdle e.start) : g.IsNash e.profile := by
  obtain ⟨p, hstart, -, hp, hgap, hprofile⟩ := exists_lastPair_of_solve h
  replace hp : g.pairAt? (⟨e.start, hstart⟩ : Fin n) e.pivots = some p := hp
  rw [hprofile]
  exact Game.isNash_of_pairAt? hidle hp hgap

theorem Solver.isNash_of_solve_twoBestResponses :
    Solver.solve {} Game.twoBestResponses = .ok ⟨⟨#v[0, 1], #v[1 / 3, 2 / 3]⟩, 0, 3⟩ ∧
      Game.twoBestResponses.ClampIdle 0 ∧
      Game.twoBestResponses.IsNash ⟨#v[0, 1], #v[1 / 3, 2 / 3]⟩ := by
  have hsolve : Solver.solve {} Game.twoBestResponses =
      .ok ⟨⟨#v[0, 1], #v[1 / 3, 2 / 3]⟩, 0, 3⟩ := by cbv
  have hidle : Game.twoBestResponses.ClampIdle 0 :=
    Game.clampIdle_of_pairAt?_eq_none 4 (by decide +kernel) (by decide +kernel) (by cbv)
  exact ⟨hsolve, hidle, isNash_of_solve hsolve hidle⟩

end Bimatrix
