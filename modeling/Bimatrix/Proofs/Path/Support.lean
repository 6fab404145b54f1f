import Mathlib.Tactic
import Bimatrix.Proofs.Path.Destination

/-! # Support sizes

The bases at which a run stops partition the labels, so as many row labels are basic in the column
tableau as column labels in the row tableau.  In exact arithmetic a strategy is played only if its
label is among them.
-/
namespace Bimatrix

variable {n m : ℕ}

theorem mem_rowLabels {l : Fin (n + m)} : l ∈ rowLabels n m ↔ l.val < n := by
  simp only [rowLabels, Finset.mem_image, Finset.mem_univ, true_and]
  constructor
  · rintro ⟨i, rfl⟩
    exact i.isLt
  · intro h
    exact ⟨⟨l.val, h⟩, rfl⟩

theorem mem_columnLabels {l : Fin (n + m)} : l ∈ columnLabels n m ↔ n ≤ l.val := by
  rw [columnLabels_eq_compl, Finset.mem_compl, mem_rowLabels, not_lt]

namespace Pair

variable {α : Type} {p : Pair α n (n + m) m (n + m)} {σ : Fin n ⊕ Fin m ≃ Fin (n + m)}

/-- The row labels that are basic in the column tableau. -/
def basicRows (p : Pair α n (n + m) m (n + m)) : Finset (Fin (n + m)) :=
  {l ∈ p.column.basisSet | l.val < n}

/-- The column labels that are basic in the row tableau. -/
def basicColumns (p : Pair α n (n + m) m (n + m)) : Finset (Fin (n + m)) :=
  {l ∈ p.row.basisSet | n ≤ l.val}

theorem basicRows_eq (p : Pair α n (n + m) m (n + m)) :
    p.basicRows = p.column.basisSet ∩ rowLabels n m := by
  ext l
  rw [basicRows, Finset.mem_filter, Finset.mem_inter, mem_rowLabels]

theorem basicColumns_eq (p : Pair α n (n + m) m (n + m)) :
    p.basicColumns = p.row.basisSet ∩ columnLabels n m := by
  ext l
  rw [basicColumns, Finset.mem_filter, Finset.mem_inter, mem_columnLabels]

theorem card_basicRows_le (p : Pair α n (n + m) m (n + m)) : p.basicRows.card ≤ n := by
  rw [basicRows_eq]
  exact (Finset.card_le_card Finset.inter_subset_right).trans_eq card_rowLabels

theorem card_basicColumns_le (p : Pair α n (n + m) m (n + m)) : p.basicColumns.card ≤ m := by
  rw [basicColumns_eq]
  exact (Finset.card_le_card Finset.inter_subset_right).trans_eq card_columnLabels

theorem Closed.row_label_injective (h : p.Closed σ) : Function.Injective p.row.label := by
  intro i k hik
  rw [h.row, h.row] at hik
  exact Sum.inl_injective (σ.injective hik)

/-- A row label that has entered one basis has left the other one, and a column label has taken its
place. -/
theorem Closed.card_basicRows (h : p.Closed σ) : p.basicRows.card = p.basicColumns.card := by
  have hrows : p.basicRows = rowLabels n m \ p.row.basisSet := by
    rw [basicRows_eq, h.columnBasis_eq_compl, Finset.inter_comm, Finset.sdiff_eq_inter_compl]
  have hcolumns : p.basicColumns = p.row.basisSet \ rowLabels n m := by
    rw [basicColumns_eq, columnLabels_eq_compl, Finset.sdiff_eq_inter_compl]
  rw [hrows, hcolumns]
  apply Finset.card_sdiff_comm
  rw [card_rowLabels, Tableau.card_basisSet h.row_label_injective]

end Pair

namespace Tableau

variable {size labels k : ℕ} {t : Tableau ℚ size labels} {names : Fin k → Fin labels}

theorem mem_basisSet_of_value_pos {l : Fin labels} (h : 0 < t.value l) : l ∈ t.basisSet := by
  by_contra hl
  rw [value_of_not_basic (mem_basisSet.not.mp hl)] at h
  exact h.false

theorem value_pos_iff (hinj : Function.Injective t.label) (hlevel : ∀ r, 0 < t.level r)
    {l : Fin labels} : 0 < t.value l ↔ l ∈ t.basisSet := by
  constructor
  · exact mem_basisSet_of_value_pos
  · intro hl
    obtain ⟨r, rfl⟩ := mem_basisSet.mp hl
    rw [value_of_basic hinj]
    exact hlevel r

theorem card_value_pos_le (hnames : Function.Injective names) :
    Finset.card {i | 0 < t.value (names i)} ≤ (t.basisSet ∩ Finset.univ.image names).card := by
  rw [← Finset.card_image_of_injective _ hnames]
  apply Finset.card_le_card
  intro l hl
  obtain ⟨i, hi, rfl⟩ := Finset.mem_image.mp hl
  exact Finset.mem_inter.mpr ⟨mem_basisSet_of_value_pos (Finset.mem_filter.mp hi).2,
    Finset.mem_image_of_mem _ (Finset.mem_univ i)⟩

theorem card_value_pos (hinj : Function.Injective t.label) (hlevel : ∀ r, 0 < t.level r)
    (hnames : Function.Injective names) :
    Finset.card {i | 0 < t.value (names i)} = (t.basisSet ∩ Finset.univ.image names).card := by
  rw [← Finset.card_image_of_injective _ hnames]
  congr 1
  ext l
  simp only [Finset.mem_image, Finset.mem_filter, Finset.mem_inter, Finset.mem_univ, true_and,
    value_pos_iff hinj hlevel]
  constructor
  · rintro ⟨i, hi, rfl⟩
    exact ⟨hi, i, rfl⟩
  · rintro ⟨hi, i, rfl⟩
    exact ⟨i, hi, rfl⟩

end Tableau

namespace Game

variable {g : Game ℚ n m} {start : Fin n} {i : ℕ} {p : Pair ℚ n (n + m) m (n + m)}

theorem card_pos_of_get_eq_div {k : ℕ} {mix : Vector ℚ k} {w : Fin k → ℚ} {total : ℚ}
    (htotal : 0 < total) (hmix : ∀ i, mix.get i = w i / total) :
    Finset.card {i | 0 < mix.get i} = Finset.card {i | 0 < w i} := by
  simp only [hmix, div_pos_iff_of_pos_right htotal]

theorem card_pos_rowMix (h : g.pairAt? start i = some p) (hgap : p.gap = []) :
    Finset.card {k | 0 < (distribution p.rowWeights).get k} =
      Finset.card {k : Fin n | 0 < p.column.value (k.castAdd m)} :=
  card_pos_of_get_eq_div (one_half_pos.trans_le (half_le_rowWeights h hgap))
    (distribution_rowWeights_get h hgap)

theorem card_pos_columnMix (h : g.pairAt? start i = some p) (hgap : p.gap = []) :
    Finset.card {j | 0 < (distribution p.columnWeights).get j} =
      Finset.card {j : Fin m | 0 < p.row.value (j.natAdd n)} :=
  card_pos_of_get_eq_div (one_half_pos.trans_le (half_le_columnWeights h hgap))
    (distribution_columnWeights_get h hgap)

end Game

namespace Solver

/-- The pair at which a run stops has every label in one basis. -/
theorem exists_closedPair_of_solve {α : Type} [Scalar α] {s : Solver} {g : Game α n m}
    {e : Equilibrium α n m} (h : s.solve g = .ok e) :
    ∃ (p : Pair α n (n + m) m (n + m)) (start : Fin n)
      (σ : Fin n ⊕ Fin m ≃ Fin (n + m)), g.lastPair? e.start s.bound.toNat = some p ∧
        g.pairAt? start e.pivots = some p ∧ p.gap = [] ∧ p.Closed σ ∧
        e.profile = ⟨distribution p.rowWeights, distribution p.columnWeights⟩ := by
  obtain ⟨p, hstart, hlast, hp, hgap, hprofile⟩ := exists_lastPair_of_solve h
  replace hp : g.pairAt? (⟨e.start, hstart⟩ : Fin n) e.pivots = some p := hp
  obtain ⟨σ, hclosed, -⟩ := Game.closed_of_gap_eq_nil hp hgap
  exact ⟨p, _, σ, hlast, hp, hgap, hclosed, hprofile⟩

/-- Where a run stops, as many row labels are basic in the column tableau as column labels in the
row tableau, whatever the arithmetic.  In exact arithmetic neither player plays more strategies
than that, and both play that many if no basic value is zero. -/
theorem supportSizes_of_solve (s : Solver) :
    (∀ (α : Type) [Scalar α] (g : Game α n m) (e : Equilibrium α n m), s.solve g = .ok e →
      ∃ p, g.lastPair? e.start s.bound.toNat = some p ∧
        p.basicRows.card = p.basicColumns.card ∧ p.basicRows.card ≤ min n m) ∧
    ∀ (g : Game ℚ n m) (e : Equilibrium ℚ n m), s.solve g = .ok e →
      ∃ p, g.lastPair? e.start s.bound.toNat = some p ∧
        Finset.card {i | 0 < e.profile.row.get i} ≤ p.basicRows.card ∧
        Finset.card {j | 0 < e.profile.column.get j} ≤ p.basicRows.card ∧
        ((∀ i, 0 < p.row.level i) → (∀ j, 0 < p.column.level j) →
          Finset.card {i | 0 < e.profile.row.get i} = p.basicRows.card ∧
          Finset.card {j | 0 < e.profile.column.get j} = p.basicRows.card) := by
  constructor
  · intro α _ g e h
    obtain ⟨p, start, σ, hlast, -, -, hclosed, -⟩ := exists_closedPair_of_solve h
    refine ⟨p, hlast, hclosed.card_basicRows, le_min p.card_basicRows_le ?_⟩
    rw [hclosed.card_basicRows]
    exact p.card_basicColumns_le
  · intro g e h
    obtain ⟨p, start, σ, hlast, hp, hgap, hclosed, hprofile⟩ := exists_closedPair_of_solve h
    obtain ⟨hrowForm, hcolumnForm⟩ := Game.inverseForm_of_pairAt? hp
    use p, hlast
    rw [hprofile]
    dsimp only
    rw [Game.card_pos_rowMix hp hgap, Game.card_pos_columnMix hp hgap]
    refine ⟨?_, ?_, fun hrow hcolumn => ⟨?_, ?_⟩⟩
    · rw [p.basicRows_eq]
      exact Tableau.card_value_pos_le (Fin.castAdd_injective n m)
    · rw [hclosed.card_basicRows, p.basicColumns_eq]
      exact Tableau.card_value_pos_le (Fin.natAdd_injective m n)
    · rw [p.basicRows_eq]
      exact Tableau.card_value_pos hcolumnForm.label_injective hcolumn
        (Fin.castAdd_injective n m)
    · rw [hclosed.card_basicRows, p.basicColumns_eq]
      exact Tableau.card_value_pos hrowForm.label_injective hrow (Fin.natAdd_injective m n)

/-- Two labels of either player enter the other's basis.  In the game with a tied ratio test a basic
value is zero, and the row player plays one strategy only. -/
theorem supportSizes_of_solve_fivePivots :
    solve ⟨.label 1, 1000⟩ Game.fivePivots = .ok ⟨⟨#v[2 / 3, 1 / 3], #v[0, 3 / 5, 2 / 5]⟩, 1, 5⟩ ∧
      (∃ p, Game.fivePivots.lastPair? 1 1000 = some p ∧
        (∀ i, 0 < p.row.level i) ∧ (∀ j, 0 < p.column.level j) ∧
        p.basicRows.card = p.basicColumns.card ∧
        Finset.card {i | 0 < (#v[2 / 3, 1 / 3] : Vector ℚ 2).get i} = p.basicRows.card ∧
        Finset.card {j | 0 < (#v[0, 3 / 5, 2 / 5] : Vector ℚ 3).get j} = p.basicRows.card) ∧
      solve {} Game.twoBestResponses = .ok ⟨⟨#v[0, 1], #v[1 / 3, 2 / 3]⟩, 0, 3⟩ ∧
      ∃ p, Game.twoBestResponses.lastPair? 0 1000 = some p ∧ p.basicRows.card = 2 ∧
        Finset.card {i | 0 < (#v[0, 1] : Vector ℚ 2).get i} ≤ p.basicRows.card ∧
        Finset.card {j | 0 < (#v[1 / 3, 2 / 3] : Vector ℚ 2).get j} ≤ p.basicRows.card := by
  have hfive : solve ⟨.label 1, 1000⟩ Game.fivePivots =
      .ok ⟨⟨#v[2 / 3, 1 / 3], #v[0, 3 / 5, 2 / 5]⟩, 1, 5⟩ := by cbv
  have htwo : solve {} Game.twoBestResponses = .ok ⟨⟨#v[0, 1], #v[1 / 3, 2 / 3]⟩, 0, 3⟩ := by cbv
  have hpositive : ∀ p ∈ Game.fivePivots.lastPair? 1 1000,
      (∀ i, 0 < p.row.level i) ∧ ∀ j, 0 < p.column.level j := by decide +kernel
  have hcard : ∀ p ∈ Game.twoBestResponses.lastPair? 0 1000, p.basicRows.card = 2 := by
    decide +kernel
  obtain ⟨hany, hexact⟩ := supportSizes_of_solve (n := 2) (m := 3) ⟨.label 1, 1000⟩
  obtain ⟨p, hp, heq, -⟩ := hany ℚ _ _ hfive
  obtain ⟨p', hp', -, -, hsize⟩ := hexact _ _ hfive
  obtain rfl := Option.some.inj (hp.symm.trans hp')
  obtain ⟨hrow, hcolumn⟩ := hpositive p hp
  obtain ⟨q, hq, hrowLe, hcolumnLe, -⟩ := (supportSizes_of_solve {}).2 _ _ htwo
  exact ⟨hfive, ⟨p, hp, hrow, hcolumn, heq, hsize hrow hcolumn⟩, htwo, q, hq, hcard q hq, hrowLe,
    hcolumnLe⟩

end Solver

end Bimatrix
