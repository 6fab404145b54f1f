import Mathlib.Tactic
import Bimatrix.Proofs.Path.Orientation
import Bimatrix.Proofs.Tableau.Vertex

/-! # Paths of nondegenerate games are reversible

Only the missing label can enter, at either side in one way, and the label that leaves is the only
one that can be missing afterwards.  A pair at which a path came back would have a neighbour that
the path had reached before, back to the pair of first tableaus, where no label is missing.
-/
namespace Bimatrix

variable {n m : ℕ}

theorem Player.other_other (side : Player) : side.other.other = side := by
  cases side <;> rfl

theorem Player.other_ne (side : Player) : side.other ≠ side := by
  cases side <;> exact nofun

theorem Player.eq_other_of_ne {side turn : Player} (h : side ≠ turn) : side = turn.other := by
  cases side <;> cases turn <;> first | rfl | exact absurd rfl h

def missing (v : Finset (Fin (n + m)) × Finset (Fin (n + m))) : Finset (Fin (n + m)) :=
  (v.1 ∪ v.2)ᶜ

theorem mem_missing {v : Finset (Fin (n + m)) × Finset (Fin (n + m))} {l : Fin (n + m)} :
    l ∈ missing v ↔ l ∉ v.1 ∧ l ∉ v.2 := by
  rw [missing, Finset.mem_compl, Finset.mem_union, not_or]

def Pair.bases {α : Type} (p : Pair α n (n + m) m (n + m)) :
    Finset (Fin (n + m)) × Finset (Fin (n + m)) :=
  (p.row.basisSet, p.column.basisSet)

theorem Pair.mem_missing_bases {α : Type} [Scalar α] {p : Pair α n (n + m) m (n + m)}
    {l : Fin (n + m)} : l ∈ missing p.bases ↔ l.val ∈ p.gap := by
  rw [mem_missing, mem_gap_iff, ← Bool.not_eq_true, ← Bool.not_eq_true, Tableau.isBasic_val_iff,
    Tableau.isBasic_val_iff, bases, Tableau.mem_basisSet, Tableau.mem_basisSet]
  exact (and_iff_right l.isLt).symm

namespace Game

/-- No basis of either system has a degenerate solution. -/
structure Nondegenerate (g : Game ℚ n m) : Prop where
  row : NondegenerateSystem g.rowSystem
  column : NondegenerateSystem g.columnSystem

/-- A label enters the basis of one player and another one leaves it. -/
def Enters (g : Game ℚ n m) (entering leaving : Fin (n + m)) (side : Player)
    (v w : Finset (Fin (n + m)) × Finset (Fin (n + m))) : Prop :=
  match side with
  | .row => Bimatrix.Enters g.rowSystem entering leaving v.1 w.1 ∧ w.2 = v.2
  | .column => Bimatrix.Enters g.columnSystem entering leaving v.2 w.2 ∧ w.1 = v.1

variable {g : Game ℚ n m} {q l k : Fin (n + m)} {side : Player}
  {u v w : Finset (Fin (n + m)) × Finset (Fin (n + m))}

theorem Enters.symm (h : g.Enters q l side v w) : g.Enters l q side w v := by
  cases side with
  | row => exact ⟨h.1.symm, h.2.symm⟩
  | column => exact ⟨h.1.symm, h.2.symm⟩

theorem Enters.unique (hv : g.Enters q l side u v) (hw : g.Enters q k side u w) : v = w := by
  cases side with
  | row => exact Prod.ext (hv.1.unique hw.1) (hv.2.trans hw.2.symm)
  | column => exact Prod.ext (hv.2.trans hw.2.symm) (hv.1.unique hw.1)

/-- If no other label than the entering one was missing, then no other label than the leaving one
is. -/
theorem Enters.missing_subset (h : g.Enters q l side v w) (hv : missing v ⊆ {q}) :
    missing w ⊆ {l} := by
  intro x hx
  rw [mem_missing] at hx
  rw [Finset.mem_singleton]
  by_contra hxl
  cases side with
  | row =>
    obtain ⟨hrow, hcolumn⟩ := h
    rw [hrow.eq_erase, hcolumn, Finset.mem_erase, Finset.mem_insert] at hx
    have hxq := hv (mem_missing.mpr ⟨fun hmem => hx.1 ⟨hxl, .inr hmem⟩, hx.2⟩)
    exact hx.1 ⟨hxl, .inl (Finset.mem_singleton.mp hxq)⟩
  | column =>
    obtain ⟨hcolumn, hrow⟩ := h
    rw [hcolumn.eq_erase, hrow, Finset.mem_erase, Finset.mem_insert] at hx
    have hxq := hv (mem_missing.mpr ⟨hx.1, fun hmem => hx.2 ⟨hxl, .inr hmem⟩⟩)
    exact hx.2 ⟨hxl, .inl (Finset.mem_singleton.mp hxq)⟩

def Moves (g : Game ℚ n m) (side : Player)
    (v w : Finset (Fin (n + m)) × Finset (Fin (n + m))) : Prop :=
  ∃ q l, missing v = {q} ∧ g.Enters q l side v w

theorem Moves.missing_nonempty (h : g.Moves side v w) : (missing v).Nonempty := by
  obtain ⟨q, -, hq, -⟩ := h
  rw [hq]
  exact Finset.singleton_nonempty q

theorem Enters.ne (h : g.Enters q l side v w) : v ≠ w := by
  rintro rfl
  cases side with
  | row => exact h.1.ne rfl
  | column => exact h.1.ne rfl

theorem Moves.ne (h : g.Moves side v w) : v ≠ w := by
  obtain ⟨q, l, -, h⟩ := h
  exact h.ne

theorem Moves.unique (hv : g.Moves side u v) (hw : g.Moves side u w) : v = w := by
  obtain ⟨q, l, hq, hv⟩ := hv
  obtain ⟨q', k, hq', hw⟩ := hw
  obtain rfl := Finset.singleton_injective (hq.symm.trans hq')
  exact hv.unique hw

theorem Enters.moves_back (h : g.Enters q l side v w) (hv : missing v ⊆ {q})
    (hw : (missing w).Nonempty) : g.Moves side w v :=
  ⟨l, q, (Finset.Nonempty.subset_singleton_iff hw).mp (h.missing_subset hv), h.symm⟩

theorem Moves.symm (h : g.Moves side v w) (hw : (missing w).Nonempty) : g.Moves side w v := by
  obtain ⟨q, l, hq, henters⟩ := h
  exact henters.moves_back hq.subset hw

theorem vertex_rowTableau (g : Game ℚ n m) : Tableau.Vertex g.rowSystem g.rowTableau where
  toInverseForm := g.inverseForm_rowTableau
  rightSide_eq := g.rightSide_rowTableau
  level_nonneg i := by
    rw [rowTableau_level]
    exact zero_le_one

theorem vertex_columnTableau (g : Game ℚ n m) :
    Tableau.Vertex g.columnSystem g.columnTableau where
  toInverseForm := g.inverseForm_columnTableau
  rightSide_eq := g.rightSide_columnTableau
  level_nonneg j := by
    rw [columnTableau_level]
    exact zero_le_one

variable {start : Fin n} {i j : ℕ} {p next : Pair ℚ n (n + m) m (n + m)}

theorem vertex_of_pairAt? (hg : g.Nondegenerate) (h : g.pairAt? start i = some p) :
    Tableau.Vertex g.rowSystem p.row ∧ Tableau.Vertex g.columnSystem p.column :=
  ⟨g.vertex_rowTableau.pivots hg.row (pivots_of_pairAt? h).1,
    g.vertex_columnTableau.pivots hg.column (pivots_of_pairAt? h).2⟩

theorem moves_of_next? (hg : g.Nondegenerate) (h : g.pairAt? start i = some p)
    (hnext : p.next? side = some next) : g.Moves side p.bases next.bases := by
  obtain ⟨hrow, hcolumn⟩ := vertex_of_pairAt? hg h
  have hgap : p.gap ≠ [] := by
    intro hnil
    rw [Pair.next?, Pair.advance_nil hnil] at hnext
    cases hnext
  obtain ⟨q, hq⟩ := exists_gap_eq h hgap
  have hhead : p.gap.head? = some q.val := by rw [hq, List.head?_cons]
  have hmissing : missing p.bases = {q} := by
    ext l
    rw [Pair.mem_missing_bases, hq, List.mem_singleton, Finset.mem_singleton, Fin.val_inj]
  cases side with
  | row =>
    obtain ⟨_, x, hx, hpivot, rfl⟩ := Pair.next?_row_eq_some_iff.mp hnext
    obtain rfl := Option.some.inj (hhead.symm.trans hx)
    exact ⟨q, x.leaving, hmissing, hrow.enters hg.row hpivot, rfl⟩
  | column =>
    obtain ⟨_, x, hx, hpivot, rfl⟩ := Pair.next?_column_eq_some_iff.mp hnext
    obtain rfl := Option.some.inj (hhead.symm.trans hx)
    exact ⟨q, x.leaving, hmissing, hcolumn.enters hg.column hpivot, rfl⟩

theorem missing_tableaus (g : Game ℚ n m) : missing g.tableaus.bases = ∅ := by
  apply Finset.eq_empty_of_forall_notMem
  intro l
  rw [mem_missing, not_and_or, not_not, not_not, Pair.bases, tableaus, Tableau.mem_basisSet,
    Tableau.mem_basisSet]
  cases l using Fin.addCases with
  | left i => exact .inl ⟨i, g.rowTableau_label i⟩
  | right j => exact .inr ⟨j, g.columnTableau_label j⟩

/-- The way back from the first pair of the path leads to the first tableaus. -/
theorem moves_back_warmStart (hg : g.Nondegenerate) (h : g.pairAt? start 0 = some p)
    (hp : (missing p.bases).Nonempty) : g.Moves .column p.bases g.tableaus.bases := by
  obtain ⟨x, hx, rfl⟩ := pairAt?_zero_eq_some_iff.mp h
  have henters := g.vertex_columnTableau.enters hg.column (q := start.castAdd m) hx
  refine Enters.moves_back (q := start.castAdd m) (l := x.leaving) ⟨henters, rfl⟩ ?_ hp
  rw [missing_tableaus]
  exact Finset.empty_subset _

theorem exists_moves (hg : g.Nondegenerate) {q : Pair ℚ n (n + m) m (n + m)}
    (hp : g.pairAt? start i = some p) (hq : g.pairAt? start j = some q) (hij : i < j) :
    ∃ next, g.pairAt? start (i + 1) = some next ∧
      g.Moves (Player.turn i) p.bases next.bases := by
  obtain ⟨next, hnext⟩ := exists_pairAt?_of_le hq hij
  obtain ⟨p₀, hp₀, hstep⟩ := pairAt?_succ_eq_some_iff.mp hnext
  obtain rfl := Option.some.inj (hp.symm.trans hp₀)
  exact ⟨next, hnext, moves_of_next? hg hp hstep⟩

theorem exists_moves_back (hg : g.Nondegenerate) (h : g.pairAt? start (i + 1) = some next)
    (hopen : (missing next.bases).Nonempty) :
    ∃ p, g.pairAt? start i = some p ∧ (missing p.bases).Nonempty ∧
      g.Moves (Player.turn i) next.bases p.bases := by
  obtain ⟨p, hp, hstep⟩ := pairAt?_succ_eq_some_iff.mp h
  have hmoves := moves_of_next? hg hp hstep
  exact ⟨p, hp, hmoves.missing_nonempty, hmoves.symm hopen⟩

/-- A path does not come back to the bases of an earlier pair. -/
theorem bases_ne_of_lt (hg : g.Nondegenerate) {q : Pair ℚ n (n + m) m (n + m)} (hij : i < j)
    (hp : g.pairAt? start i = some p) (hq : g.pairAt? start j = some q) : p.bases ≠ q.bases := by
  induction j using Nat.strong_induction_on generalizing i p q with
  | _ j ih =>
    intro heq
    obtain ⟨j, rfl⟩ := Nat.exists_eq_add_one.mpr (Nat.zero_lt_of_lt hij)
    obtain ⟨p', hp', hforward⟩ := exists_moves hg hp hq hij
    have hopen : (missing p.bases).Nonempty := hforward.missing_nonempty
    obtain ⟨q', hq', hqopen, hback⟩ := exists_moves_back hg hq (heq ▸ hopen)
    rw [← heq] at hback
    by_cases hturn : Player.turn j = Player.turn i
    · -- the pair after `i` would come back before `j + 1`
      rw [hturn] at hback
      have hneighbour : p'.bases = q'.bases := hforward.unique hback
      rcases Nat.lt_trichotomy (i + 1) j with hlt | rfl | hgt
      · exact ih j (Nat.lt_succ_self j) hlt hp' hq' hneighbour
      · exact Player.other_ne _ hturn
      · obtain rfl : i = j := by omega
        obtain rfl := Option.some.inj (hp.symm.trans hq')
        exact hback.ne rfl
    · -- the pair before `i` would come back before `j + 1`
      rw [Player.eq_other_of_ne hturn] at hback
      cases i with
      | zero =>
        have hneighbour := (moves_back_warmStart hg hp hopen).unique hback
        rw [← hneighbour, missing_tableaus] at hqopen
        exact Finset.not_nonempty_empty hqopen
      | succ k =>
        obtain ⟨p₀, hp₀, -, hreturn⟩ := exists_moves_back hg hp hopen
        rw [Player.turn, Player.other_other] at hback
        exact ih j (Nat.lt_succ_self j) (by omega) hp₀ hq' (hreturn.unique hback)

end Game

end Bimatrix
