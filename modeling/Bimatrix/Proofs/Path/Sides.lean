import Mathlib.Tactic
import Bimatrix.Proofs.Path.Destination

/-! # Both sides of a path

The tableau and the system of either player under one name, so that what holds of both is said
once, and the pivots of a run in their order.
-/
namespace Bimatrix

open Matrix

variable {α : Type} {n m : ℕ}

namespace Player

def size (n m : ℕ) : Player → ℕ
  | row => n
  | column => m

theorem eq_or_eq_other (side turn : Player) : side = turn ∨ side = turn.other := by
  cases side <;> cases turn <;> simp [other]

end Player

namespace Pair

def tableau (p : Pair α n (n + m) m (n + m)) :
    (side : Player) → Tableau α (side.size n m) (n + m)
  | .row => p.row
  | .column => p.column

variable [Scalar α]

/-- A move pivots the tableau of one side and leaves that of the other side alone. -/
theorem exists_pivot_of_next? {p next : Pair α n (n + m) m (n + m)} {side : Player}
    (h : p.next? side = some next) :
    ∃ (q : Fin (n + m)) (x : Exchange α (side.size n m) (n + m)),
      p.gap.head? = some q.val ∧ (p.tableau side).pivot q.val = .ok x ∧
        next.tableau side = x.tableau ∧ next.tableau side.other = p.tableau side.other := by
  cases side with
  | row =>
    obtain ⟨q, x, hq, hx, rfl⟩ := next?_row_eq_some_iff.mp h
    obtain ⟨hlt, -⟩ := Tableau.pivot_eq_ok_iff.mp hx
    exact ⟨⟨q, hlt⟩, x, hq, hx, rfl, rfl⟩
  | column =>
    obtain ⟨q, x, hq, hx, rfl⟩ := next?_column_eq_some_iff.mp h
    obtain ⟨hlt, -⟩ := Tableau.pivot_eq_ok_iff.mp hx
    exact ⟨⟨q, hlt⟩, x, hq, hx, rfl, rfl⟩

end Pair

namespace Game

/-- The pivots of a run by number: the warm start, then one on each pair that misses a label. -/
inductive Performs [Scalar α] (g : Game α n m) (start : Fin n) : ℕ → (side : Player) →
    Tableau α (side.size n m) (n + m) → Fin (n + m) → Exchange α (side.size n m) (n + m) → Prop
  | warmStart {x : Exchange α m (n + m)} : g.columnTableau.pivot start = .ok x →
      g.Performs start 0 .column g.columnTableau (start.castAdd m) x
  | move {i : ℕ} {p : Pair α n (n + m) m (n + m)} {q : Fin (n + m)}
      {x : Exchange α ((Player.turn i).size n m) (n + m)} :
      g.pairAt? start i = some p → p.gap.head? = some q.val →
      (p.tableau (Player.turn i)).pivot q.val = .ok x →
      g.Performs start (i + 1) (Player.turn i) (p.tableau (Player.turn i)) q x

theorem Performs.pivot_eq [Scalar α] {g : Game α n m} {start : Fin n} {k : ℕ} {side : Player}
    {t : Tableau α (side.size n m) (n + m)} {q : Fin (n + m)}
    {x : Exchange α (side.size n m) (n + m)} (h : g.Performs start k side t q x) :
    t.pivot q.val = .ok x := by
  cases h with
  | warmStart hx => exact hx
  | move _ _ hx => exact hx

def initial [Scalar α] (g : Game α n m) : (side : Player) → Tableau α (side.size n m) (n + m)
  | .row => g.rowTableau
  | .column => g.columnTableau

/-- What holds of both tableaus before the warm start, is carried along while a tableau waits and is
kept by the pivots of a run holds of both sides of every pair of its path. -/
theorem tableau_invariant [Scalar α] {g : Game α n m} {start : Fin n}
    {motive : ℕ → (side : Player) → Tableau α (side.size n m) (n + m) → Prop}
    (hinitial : ∀ side, motive 0 side (g.initial side))
    (hwait : ∀ k side t, motive k side t → motive (k + 1) side t)
    (hpivot : ∀ k side t q x, g.Performs start k side t q x → motive k side t →
      motive (k + 1) side x.tableau) {i : ℕ} {p : Pair α n (n + m) m (n + m)}
    (h : g.pairAt? start i = some p) (side : Player) : motive (i + 1) side (p.tableau side) := by
  induction i generalizing p side with
  | zero =>
    obtain ⟨x, hx, rfl⟩ := pairAt?_zero_eq_some_iff.mp h
    cases side with
    | row => exact hwait _ _ _ (hinitial .row)
    | column => exact hpivot _ _ _ _ _ (.warmStart hx) (hinitial .column)
  | succ i ih =>
    obtain ⟨p, hp, hnext⟩ := pairAt?_succ_eq_some_iff.mp h
    obtain ⟨q, x, hq, hx, hturn, hother⟩ := Pair.exists_pivot_of_next? hnext
    obtain rfl | rfl := Player.eq_or_eq_other side (Player.turn i)
    · rw [hturn]
      exact hpivot _ _ _ _ _ (.move hp hq hx) (ih hp _)
    · rw [hother]
      exact hwait _ _ _ (ih hp _)

def system (g : Game ℚ n m) : (side : Player) → Matrix (Fin (side.size n m)) (Fin (n + m)) ℚ
  | .row => g.rowSystem
  | .column => g.columnSystem

theorem system_nonneg (g : Game ℚ n m) (side : Player) (i : Fin (side.size n m))
    (l : Fin (n + m)) : 0 ≤ g.system side i l := by
  cases side with
  | row => exact g.rowSystem_nonneg i l
  | column => exact g.columnSystem_nonneg i l

variable {g : Game ℚ n m} {start : Fin n} {i : ℕ} {p : Pair ℚ n (n + m) m (n + m)}

theorem inverseForm_tableau (h : g.pairAt? start i = some p) (side : Player) :
    Tableau.InverseForm (g.system side) (p.tableau side) := by
  cases side with
  | row => exact (inverseForm_of_pairAt? h).1
  | column => exact (inverseForm_of_pairAt? h).2

theorem mulVec_value_tableau (h : g.pairAt? start i = some p) (side : Player) :
    g.system side *ᵥ (p.tableau side).value = (p.tableau side).rightSide (g.system side) :=
  Tableau.mulVec_value (inverseForm_tableau h side).label_injective _

theorem one_le_rightSide (h : g.pairAt? start i = some p) (side : Player) :
    1 ≤ (p.tableau side).rightSide (g.system side) := by
  rw [← mulVec_value_tableau h]
  cases side with
  | row => exact (one_le_mulVec_of_pairAt? h).1
  | column => exact (one_le_mulVec_of_pairAt? h).2

theorem rightSide_initial (g : Game ℚ n m) (side : Player) :
    (g.initial side).rightSide (g.system side) = 1 := by
  cases side with
  | row => exact g.rightSide_rowTableau
  | column => exact g.rightSide_columnTableau

theorem level_tableau_nonneg (h : g.pairAt? start i = some p) (side : Player)
    (r : Fin (side.size n m)) : 0 ≤ (p.tableau side).level r := by
  rw [← Tableau.value_of_basic (inverseForm_tableau h side).label_injective r]
  cases side with
  | row => exact (value_nonneg_of_pairAt? h _).1
  | column => exact (value_nonneg_of_pairAt? h _).2

section Performs
variable {k : ℕ} {side : Player} {t : Tableau ℚ (side.size n m) (n + m)} {q : Fin (n + m)}
  {x : Exchange ℚ (side.size n m) (n + m)}

theorem Performs.inverseForm (h : g.Performs start k side t q x) :
    Tableau.InverseForm (g.system side) t := by
  cases h with
  | warmStart _ => exact g.inverseForm_columnTableau
  | move hp _ _ => exact inverseForm_tableau hp _

theorem Performs.level_nonneg (h : g.Performs start k side t q x) (r : Fin (side.size n m)) :
    0 ≤ t.level r := by
  cases h with
  | warmStart _ => exact (zero_le_one' ℚ).trans_eq (g.columnTableau_level r).symm
  | move hp _ _ => exact level_tableau_nonneg hp _ r

end Performs

end Game

end Bimatrix
