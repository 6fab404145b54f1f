import Mathlib.Tactic
import Bimatrix.Proofs.Path.Sides
import Bimatrix.Proofs.Tableau.Clamp

/-! # When the values of a path are exact

The ratio test bounds the rows with an entry above the cutoff, the clamp those with a positive one.
The values of a path solve the systems of its game as long as the two agree on the rows they meet.
-/
namespace Bimatrix

open Matrix

variable {n m : ℕ}

namespace Game

variable {g : Game ℚ n m} {start : Fin n} {i : ℕ} {p : Pair ℚ n (n + m) m (n + m)}

/-- The ratio test bounds every row in the pivot of the given number, if there is such a pivot. -/
def BoundsRowsAt (g : Game ℚ n m) (start : Fin n) (k : ℕ) : Prop :=
  ∀ side t q x, g.Performs start k side t q x → t.BoundsRows q x.row

theorem boundsRowsAt_zero_iff {x : Exchange ℚ m (n + m)}
    (hx : g.columnTableau.pivot start = .ok x) :
    g.BoundsRowsAt start 0 ↔ g.columnTableau.BoundsRows (start.castAdd m) x.row := by
  constructor
  · intro h
    exact h _ _ _ _ (.warmStart hx)
  · intro h side t q x' hperforms
    cases hperforms with
    | warmStart hx' =>
      obtain rfl := Except.ok.inj (hx.symm.trans hx')
      exact h

theorem boundsRowsAt_succ_iff {q : Fin (n + m)}
    {x : Exchange ℚ ((Player.turn i).size n m) (n + m)} (hp : g.pairAt? start i = some p)
    (hq : p.gap.head? = some q.val) (hx : (p.tableau (Player.turn i)).pivot q.val = .ok x) :
    g.BoundsRowsAt start (i + 1) ↔ (p.tableau (Player.turn i)).BoundsRows q x.row := by
  constructor
  · intro h
    exact h _ _ _ _ (.move hp hq hx)
  · intro h side t q' x' hperforms
    cases hperforms with
    | move hp' hq' hx' =>
      obtain rfl := Option.some.inj (hp.symm.trans hp')
      obtain rfl := Fin.ext (Option.some.inj (hq.symm.trans hq'))
      obtain rfl := Except.ok.inj (hx.symm.trans hx')
      exact h

theorem rightSide_eq_one_iff_zero (h : g.pairAt? start 0 = some p) :
    (∀ side, (p.tableau side).rightSide (g.system side) = 1) ↔ g.BoundsRowsAt start 0 := by
  obtain ⟨x, hx, rfl⟩ := pairAt?_zero_eq_some_iff.mp h
  have hcolumn := g.inverseForm_columnTableau.rightSide_pivot_eq_iff g.columnSystem_nonneg
    (q := start.castAdd m) hx g.rightSide_columnTableau.ge
  rw [boundsRowsAt_zero_iff hx]
  constructor
  · intro hexact
    exact (hcolumn.mp (hexact .column)).2
  · intro hbounds side
    cases side with
    | row => exact g.rightSide_rowTableau
    | column => exact hcolumn.mpr ⟨g.rightSide_columnTableau, hbounds⟩

theorem rightSide_eq_one_iff_succ {next : Pair ℚ n (n + m) m (n + m)}
    (hp : g.pairAt? start i = some p) (hnext : p.next? (Player.turn i) = some next) :
    (∀ side, (next.tableau side).rightSide (g.system side) = 1) ↔
      (∀ side, (p.tableau side).rightSide (g.system side) = 1) ∧ g.BoundsRowsAt start (i + 1) := by
  obtain ⟨q, x, hq, hx, hturn, hother⟩ := Pair.exists_pivot_of_next? hnext
  have hpivot := (inverseForm_tableau hp _).rightSide_pivot_eq_iff (g.system_nonneg _) hx
    (one_le_rightSide hp _)
  rw [boundsRowsAt_succ_iff hp hq hx]
  constructor
  · intro hexact
    have hmoved := hexact (Player.turn i)
    rw [hturn, hpivot] at hmoved
    refine ⟨fun side => ?_, hmoved.2⟩
    obtain rfl | rfl := Player.eq_or_eq_other side (Player.turn i)
    · exact hmoved.1
    · rw [← hother]
      exact hexact _
  · rintro ⟨hexact, hbounds⟩ side
    obtain rfl | rfl := Player.eq_or_eq_other side (Player.turn i)
    · rw [hturn]
      exact hpivot.mpr ⟨hexact _, hbounds⟩
    · rw [hother]
      exact hexact _

theorem rightSide_eq_one_iff (h : g.pairAt? start i = some p) :
    (∀ side, (p.tableau side).rightSide (g.system side) = 1) ↔
      ∀ k ≤ i, g.BoundsRowsAt start k := by
  induction i generalizing p with
  | zero => simp [rightSide_eq_one_iff_zero h]
  | succ i ih =>
    obtain ⟨p, hp, hnext⟩ := pairAt?_succ_eq_some_iff.mp h
    rw [rightSide_eq_one_iff_succ hp hnext, ih hp]
    simp only [Nat.le_succ_iff, or_imp, forall_and, forall_eq]

/-- In every pivot of a run the ratio test bounds the rows with an entry above the cutoff at zero.
The values of both sides solve the systems of the game exactly as long as it has also bounded the
rows whose positive entry it passes over, those that the clamp would raise. -/
theorem exact_iff_boundsRows (g : Game ℚ n m) (start : Fin n) :
    (∀ k side t q x, g.Performs start k side t q x → ∀ r, Scalar.cutoff < t.entries r q →
        0 ≤ t.level r - t.entries r q * t.ratio q x.row) ∧
      ∀ i p, g.pairAt? start i = some p →
        ((∀ side, g.system side *ᵥ (p.tableau side).value = 1) ↔
          ∀ k ≤ i, g.BoundsRowsAt start k) := by
  constructor
  · intro k side t q x hperforms r hr
    obtain ⟨_, -, hrow, -⟩ := Tableau.pivot_eq_ok_iff.mp hperforms.pivot_eq
    exact sub_nonneg.mpr (Tableau.mul_ratio_le_level hrow hr)
  · intro i p hp
    simp only [mulVec_value_tableau hp]
    exact rightSide_eq_one_iff hp

theorem exact_iff_boundsRows_nearTied :
    (∃ x, nearTied.Performs 1 0 .column nearTied.columnTableau 1 x ∧
      ∀ r, Scalar.cutoff < nearTied.columnTableau.entries r 1 →
        0 ≤ nearTied.columnTableau.level r -
          nearTied.columnTableau.entries r 1 * nearTied.columnTableau.ratio 1 x.row) ∧
      ∃ p, nearTied.pairAt? 1 2 = some p ∧
        (∀ side, nearTied.system side *ᵥ (p.tableau side).value = 1) ∧
        ∀ k ≤ 2, nearTied.BoundsRowsAt 1 k := by
  obtain ⟨hrows, hexact⟩ := nearTied.exact_iff_boundsRows 1
  have hvalues : (nearTied.pairAt? 1 2).map (fun p =>
      (nearTied.rowSystem *ᵥ p.row.value, nearTied.columnSystem *ᵥ p.column.value)) =
        some (1, 1) := by decide +kernel
  obtain ⟨p, hp, hpair⟩ := Option.map_eq_some_iff.mp hvalues
  obtain ⟨hrow, hcolumn⟩ := Prod.mk.inj hpair
  have hsides (side : Player) : nearTied.system side *ᵥ (p.tableau side).value = 1 := by
    cases side with
    | row => exact hrow
    | column => exact hcolumn
  obtain ⟨opened, hopened⟩ := exists_pairAt?_of_le hp (Nat.zero_le 2)
  obtain ⟨x, hx, -⟩ := pairAt?_zero_eq_some_iff.mp hopened
  have hwarm : nearTied.Performs 1 0 .column nearTied.columnTableau 1 x := .warmStart hx
  exact ⟨⟨x, hwarm, hrows _ _ _ _ _ hwarm⟩, p, hp, hsides, (hexact 2 p hp).mp hsides⟩

/-- A run that finds an equilibrium in which the clamp has hidden more than round-off: the second
row of the system no longer adds up to one. -/
theorem boundsRows_fails_nearTied :
    Solver.solve ⟨.label 1, 1000⟩ nearTied = .ok ⟨⟨#v[1, 0], #v[0, 1]⟩, 1, 4⟩ ∧
      (¬ ∀ k ≤ 3, nearTied.BoundsRowsAt 1 k) ∧
      ∃ p, nearTied.pairAt? 1 3 = some p ∧
        (nearTied.rowSystem *ᵥ p.row.value) 1 = 1 + 1 / 1099511627776 := by
  have hvalue : (nearTied.pairAt? 1 3).map (fun p => (nearTied.rowSystem *ᵥ p.row.value) 1) =
      some (1 + 1 / 1099511627776) := by decide +kernel
  obtain ⟨p, hp, hrow⟩ := Option.map_eq_some_iff.mp hvalue
  replace hp : nearTied.pairAt? (1 : Fin 2) 3 = some p := hp
  refine ⟨by cbv, fun hbounds => ?_, p, hp, hrow⟩
  have hside := (rightSide_eq_one_iff hp).mpr hbounds .row
  rw [← mulVec_value_tableau hp] at hside
  have hexact : nearTied.rowSystem *ᵥ p.row.value = 1 := hside
  rw [hexact, Pi.one_apply] at hrow
  norm_num at hrow

end Game

end Bimatrix
