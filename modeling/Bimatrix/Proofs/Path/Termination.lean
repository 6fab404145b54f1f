import Mathlib.Tactic
import Bimatrix.Proofs.Path.Outcome
import Bimatrix.Proofs.Path.Progress
import Bimatrix.Proofs.Path.Reversal

/-! # Termination on nondegenerate games

No pivot of a nondegenerate game is refused and no pair of bases comes back, so a path is no longer
than there are pairs of bases.
-/
namespace Bimatrix

variable {n m : ℕ}

/-- Where nothing lies between zero and the cutoff a positive entry of the system is enough. -/
theorem Tableau.Vertex.exists_pivot {size labels : ℕ} {A : Matrix (Fin size) (Fin labels) ℚ}
    (hA : NondegenerateSystem A) (hnonneg : ∀ i j, 0 ≤ A i j) {t : Tableau ℚ size labels}
    (h : Vertex A t) {q : Fin labels} (hpos : ∃ i, 1 ≤ A i q) (hq : t.isBasic q.val = false) :
    ∃ x, t.pivot q.val = .ok x := by
  obtain ⟨i, hi⟩ := hpos
  have hentry : (0 : ℚ) * ∑ l, A i l < A i q := by
    rw [zero_mul]
    exact one_pos.trans_le hi
  obtain ⟨r, hr⟩ := h.toInverseForm.exists_entry_gt hnonneg le_rfl hentry
  exact exists_pivot_of_entry_gt hq ⟨r, h.cutoff_lt hA hr⟩

def basisPairs (n m : ℕ) : Finset (Finset (Fin (n + m)) × Finset (Fin (n + m))) :=
  Finset.univ.powersetCard n ×ˢ Finset.univ.powersetCard m

theorem card_basisPairs : (basisPairs n m).card = (n + m).choose n ^ 2 := by
  rw [basisPairs, Finset.card_product, Finset.card_powersetCard, Finset.card_powersetCard,
    Finset.card_univ, Fintype.card_fin, Nat.choose_symm_add, sq]

namespace Game

variable {g : Game ℚ n m} {start : Fin n} {i : ℕ} {p : Pair ℚ n (n + m) m (n + m)}

theorem bases_mem_basisPairs (hg : g.Nondegenerate) (h : g.pairAt? start i = some p) :
    p.bases ∈ basisPairs n m := by
  obtain ⟨hrow, hcolumn⟩ := vertex_of_pairAt? hg h
  rw [basisPairs, Finset.mem_product, Finset.mem_powersetCard, Finset.mem_powersetCard]
  exact ⟨⟨Finset.subset_univ _, Tableau.card_basisSet hrow.label_injective⟩,
    Finset.subset_univ _, Tableau.card_basisSet hcolumn.label_injective⟩

theorem eq_of_bases_eq (hg : g.Nondegenerate) {j : ℕ} {q : Pair ℚ n (n + m) m (n + m)}
    (hp : g.pairAt? start i = some p) (hq : g.pairAt? start j = some q)
    (h : p.bases = q.bases) : i = j := by
  rcases Nat.lt_trichotomy i j with hlt | heq | hgt
  · exact absurd h (bases_ne_of_lt hg hlt hp hq)
  · exact heq
  · exact absurd h.symm (bases_ne_of_lt hg hgt hq hp)

/-- The pairs of a path all have different bases. -/
theorem length_lt_of_pairAt? (hg : g.Nondegenerate) (h : g.pairAt? start i = some p) :
    i < (n + m).choose n ^ 2 := by
  have hpath : ∀ k : Fin (i + 1), ∃ q, g.pairAt? start k = some q :=
    fun k => exists_pairAt?_of_le h (Nat.lt_succ_iff.mp k.isLt)
  choose pairs hpairs using hpath
  have hcard := Finset.card_le_card_of_injOn (s := Finset.univ) (fun k => (pairs k).bases)
    (fun k _ => bases_mem_basisPairs hg (hpairs k))
    fun k _ l _ heq => Fin.ext (eq_of_bases_eq hg (hpairs k) (hpairs l) heq)
  rw [Finset.card_univ, Fintype.card_fin, card_basisPairs] at hcard
  exact hcard

theorem exists_next?_of_nondegenerate (hg : g.Nondegenerate) (h : g.pairAt? start i = some p)
    (hgap : p.gap ≠ []) (side : Player) : ∃ next, p.next? side = some next := by
  obtain ⟨hrow, hcolumn⟩ := vertex_of_pairAt? hg h
  apply Pair.exists_next? hgap
  · intro q hq
    exact hrow.exists_pivot hg.row g.rowSystem_nonneg (g.exists_one_le_rowSystem ⟨q, hq⟩)
  · intro q hq
    exact hcolumn.exists_pivot hg.column g.columnSystem_nonneg
      (g.exists_one_le_columnSystem ⟨q, hq⟩)

theorem exists_warmStart (hg : g.Nondegenerate) (start : Fin n) :
    ∃ x, g.columnTableau.pivot start = .ok x :=
  g.vertex_columnTableau.exists_pivot hg.column g.columnSystem_nonneg (q := start.castAdd m)
    (g.exists_one_le_columnSystem _) (g.columnTableau_isBasic_start start)

/-- The warm start of a nondegenerate game succeeds.  The path goes through the pairs that the loop
leads to by its pivots and has no pair of bases twice, and a run whose bound exceeds their number
finds an equilibrium. -/
theorem Nondegenerate.terminates (hg : g.Nondegenerate) (start : Fin n) :
    (∃ warmStart opened, g.tableaus.pivot .column start = .ok (warmStart, opened) ∧
        ∀ i p, g.pairAt? start i = some p ↔
          (opened.walk .row [] i).moves.length = i ∧ (opened.walk .row [] i).last = p) ∧
      (∀ i j p q, g.pairAt? start i = some p → g.pairAt? start j = some q →
        p.row.basisSet = q.row.basisSet → p.column.basisSet = q.column.basisSet → i = j) ∧
      ∀ s : Solver, s.startingLabel n = .ok start → (n + m).choose n ^ 2 < s.bound.toNat →
        ∃ e, s.solve g = .ok e := by
  refine ⟨?_, ?_, ?_⟩
  · obtain ⟨x, hx⟩ := exists_warmStart hg start
    have hopened := pivot_tableaus hx
    exact ⟨_, _, hopened, fun i p => pairAt?_eq_some_iff_walk hopened⟩
  · intro i j p q hp hq hrow hcolumn
    exact eq_of_bases_eq hg hp hq (Prod.ext hrow hcolumn)
  · intro s hs hbound
    obtain hsolve | ⟨-, p, hp⟩ := Solver.solve_of_next? hs (exists_warmStart hg start)
      fun i p hp hgap => exists_next?_of_nondegenerate hg hp hgap _
    · exact hsolve
    · exact absurd (length_lt_of_pairAt? hg hp) hbound.asymm

theorem nondegenerate_matchingPennies : matchingPennies.Nondegenerate :=
  ⟨by decide +kernel, by decide +kernel⟩

theorem Nondegenerate.terminates_matchingPennies :
    matchingPennies.Nondegenerate ∧ Solver.startingLabel {} 2 = .ok 0 ∧
      (2 + 2).choose 2 ^ 2 < 1000 ∧
      (∃ warmStart opened, matchingPennies.tableaus.pivot .column 0 = .ok (warmStart, opened) ∧
        ∀ i p, matchingPennies.pairAt? 0 i = some p ↔
          (opened.walk .row [] i).moves.length = i ∧ (opened.walk .row [] i).last = p) ∧
      (∀ i j p q, matchingPennies.pairAt? 0 i = some p → matchingPennies.pairAt? 0 j = some q →
        p.row.basisSet = q.row.basisSet → p.column.basisSet = q.column.basisSet → i = j) ∧
      ∃ e, Solver.solve {} matchingPennies = .ok e := by
  have hbound : (2 + 2).choose 2 ^ 2 < 1000 := by decide
  obtain ⟨hpairs, hdistinct, hsolve⟩ :=
    Nondegenerate.terminates nondegenerate_matchingPennies 0
  exact ⟨nondegenerate_matchingPennies, rfl, hbound, hpairs, hdistinct, hsolve {} rfl hbound⟩

end Game

end Bimatrix
