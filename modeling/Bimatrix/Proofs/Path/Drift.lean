import Mathlib.Tactic
import Bimatrix.Proofs.Equilibrium
import Bimatrix.Proofs.Path.Progress
import Bimatrix.Proofs.Path.Sides
import Bimatrix.Proofs.Tableau.Drift

/-! # What the cutoff can cost

A row of either system holds entries of at most two at the labels of one player and a single one at
those of the other, so at the labels of a basis it adds up to at most `2 * min n m + 1`.  However
many rows the clamp raises, each pivot enlarges the right-hand sides by a share of about that times
the cutoff, and a profile falls short of an equilibrium by no more than the right-hand sides have
grown.
-/
namespace Bimatrix

open Matrix

variable {n m : ℕ}

/-- Entries of at most two at the labels of `C`, and outside of `C` at most a single one. -/
theorem sum_le_of_single_off {labels : ℕ} {f : Fin labels → ℚ} {C : Finset (Fin labels)}
    {s : Fin labels} (hC : ∀ l ∈ C, f l ≤ 2) (hoff : ∀ l ∉ C, f l ≤ if l = s then 1 else 0)
    (F : Finset (Fin labels)) : ∑ l ∈ F, f l ≤ 2 * (min F.card C.card : ℕ) + 1 := by
  have hcard : (F ∩ C).card ≤ min F.card C.card :=
    le_min (Finset.card_le_card Finset.inter_subset_left)
      (Finset.card_le_card Finset.inter_subset_right)
  have hinside : ∑ l ∈ F ∩ C, f l ≤ 2 * (min F.card C.card : ℕ) :=
    calc ∑ l ∈ F ∩ C, f l ≤ (F ∩ C).card • (2 : ℚ) :=
          Finset.sum_le_card_nsmul _ _ _ fun l hl => hC l (Finset.mem_inter.mp hl).2
      _ = 2 * ((F ∩ C).card : ℚ) := by rw [nsmul_eq_mul, mul_comm]
      _ ≤ 2 * (min F.card C.card : ℕ) :=
        mul_le_mul_of_nonneg_left (Nat.cast_le.mpr hcard) zero_le_two
  have houtside : ∑ l ∈ F \ C, f l ≤ 1 :=
    calc ∑ l ∈ F \ C, f l ≤ ∑ l ∈ F \ C, if l = s then 1 else 0 :=
          Finset.sum_le_sum fun l hl => hoff l (Finset.mem_sdiff.mp hl).2
      _ = if s ∈ F \ C then 1 else 0 := Finset.sum_ite_eq' _ _ _
      _ ≤ 1 := by split_ifs <;> norm_num
  rw [← Finset.sum_inter_add_sum_sdiff F C f]
  exact add_le_add hinside houtside

/-- What one has grown to after `k` pivots, each of which adds a share of at most `y`. -/
def envelope (y : ℚ) (k : ℕ) : ℚ := (1 - k * y)⁻¹

@[simp] theorem envelope_zero (y : ℚ) : envelope y 0 = 1 := by simp [envelope]

section Envelope
variable {y : ℚ} {k : ℕ}

theorem mul_le_of_succ (hy : 0 ≤ y) {b : ℚ} (h : (k + 1 : ℕ) * y ≤ b) : k * y ≤ b :=
  (mul_le_mul_of_nonneg_right (by exact_mod_cast k.le_succ) hy).trans h

theorem envelope_le_succ (hy : 0 ≤ y) (h : (k + 1 : ℕ) * y ≤ 1 / 2) :
    envelope y k ≤ envelope y (k + 1) := by
  apply inv_anti₀
  · linarith
  · linarith [mul_le_of_succ hy (le_refl ((k + 1 : ℕ) * y))]

theorem envelope_le_succ_mul (hy : 0 ≤ y) (h : (k + 1 : ℕ) * y ≤ 1 / 2) :
    envelope y k ≤ envelope y (k + 1) * (1 - y) := by
  have hky : 0 ≤ k * y := mul_nonneg k.cast_nonneg hy
  have hnow : 0 < 1 - k * y := by linarith [mul_le_of_succ hy h]
  have hnext : 0 < 1 - (k + 1 : ℕ) * y := by linarith
  rw [envelope, envelope, inv_mul_eq_div, le_div_iff₀ hnext, inv_mul_le_iff₀ hnow]
  push_cast
  linarith [mul_nonneg hky hy]

theorem envelope_le (hy : 0 ≤ y) (h : k * y ≤ 1 / 2) : envelope y k ≤ 1 + 2 * (k * y) := by
  have hky : 0 ≤ k * y := mul_nonneg k.cast_nonneg hy
  have hpos : 0 < 1 - k * y := by linarith
  have hgain : 0 ≤ k * y * (1 - 2 * (k * y)) := mul_nonneg hky (by linarith)
  rw [envelope, inv_le_iff_one_le_mul₀ hpos]
  linarith

end Envelope

namespace Game

variable (g : Game ℚ n m)

theorem rowSumsLe_rowSystem :
    Tableau.RowSumsLe g.rowSystem (2 * (min n m : ℕ) + 1) := by
  intro k F hF
  have hoff : ∀ l ∉ columnLabels n m, g.rowSystem k l ≤ if l = k.castAdd m then 1 else 0 := by
    intro l hl
    cases l using Fin.addCases with
    | left i => simp [one_apply, eq_comm]
    | right j => exact absurd (Finset.mem_image_of_mem _ (Finset.mem_univ j)) hl
  have hsum := sum_le_of_single_off (fun l _ => (g.rowSystem_mem_Icc k l).2) hoff F
  rw [hF, card_columnLabels] at hsum
  exact hsum

theorem rowSumsLe_columnSystem :
    Tableau.RowSumsLe g.columnSystem (2 * (min n m : ℕ) + 1) := by
  intro k F hF
  have hoff : ∀ l ∉ rowLabels n m, g.columnSystem k l ≤ if l = k.natAdd n then 1 else 0 := by
    intro l hl
    cases l using Fin.addCases with
    | left i => exact absurd (Finset.mem_image_of_mem _ (Finset.mem_univ i)) hl
    | right j => simp [one_apply, eq_comm]
  have hsum := sum_le_of_single_off (fun l _ => (g.columnSystem_mem_Icc k l).2) hoff F
  rw [hF, card_rowLabels, min_comm] at hsum
  exact hsum

theorem rowSumsLe_system (side : Player) :
    Tableau.RowSumsLe (g.system side) (2 * (min n m : ℕ) + 1) := by
  cases side with
  | row => exact g.rowSumsLe_rowSystem
  | column => exact g.rowSumsLe_columnSystem

theorem exists_one_le_system (side : Player) (q : Fin (n + m)) : ∃ k, 1 ≤ g.system side k q := by
  cases side with
  | row => exact g.exists_one_le_rowSystem q
  | column => exact g.exists_one_le_columnSystem q

variable {g} {start : Fin n} {i : ℕ} {p : Pair ℚ n (n + m) m (n + m)}

/-- The share of the right-hand sides that the clamp can add in one pivot. -/
def clampShare (n m : ℕ) : ℚ := (2 * (min n m : ℕ) + 1) * Scalar.cutoff

theorem clampShare_nonneg (n m : ℕ) : 0 ≤ clampShare n m :=
  mul_nonneg (by positivity) Scalar.cutoff_pos.le

theorem Performs.rightSide_pivot_le {k : ℕ} {side : Player} {t : Tableau ℚ (side.size n m) (n + m)}
    {q : Fin (n + m)} {x : Exchange ℚ (side.size n m) (n + m)} (h : g.Performs start k side t q x)
    (hsmall : (k + 1 : ℕ) * clampShare n m ≤ 1 / 2)
    (hbound : ∀ r, t.rightSide (g.system side) r ≤ envelope (clampShare n m) k)
    (r : Fin (side.size n m)) :
    x.tableau.rightSide (g.system side) r ≤ envelope (clampShare n m) (k + 1) := by
  have hshare := clampShare_nonneg n m
  have hone : clampShare n m ≤ 1 / 2 :=
    (le_mul_of_one_le_left hshare (by exact_mod_cast Nat.le_add_left 1 k)).trans hsmall
  have hpivot := h.inverseForm.rightSide_pivot_mul_le (g.system_nonneg side)
    (g.rowSumsLe_system side) (g.exists_one_le_system side q) (hone.trans (by norm_num))
    h.level_nonneg h.pivot_eq hbound r
  exact le_of_mul_le_mul_right (hpivot.trans (envelope_le_succ_mul hshare hsmall))
    (sub_pos.mpr (hone.trans_lt one_half_lt_one))

/-- The right-hand sides after the warm start and `i` more pivots. -/
theorem rightSide_le_of_pairAt? (h : g.pairAt? start i = some p)
    (hsmall : (i + 1 : ℕ) * clampShare n m ≤ 1 / 2) (side : Player) (r : Fin (side.size n m)) :
    (p.tableau side).rightSide (g.system side) r ≤ envelope (clampShare n m) (i + 1) := by
  have hshare := clampShare_nonneg n m
  -- The premise is part of the invariant since it is known for the last number of pivots only.
  refine tableau_invariant (motive := fun k side t => k * clampShare n m ≤ 1 / 2 →
    ∀ r, t.rightSide (g.system side) r ≤ envelope (clampShare n m) k) ?_ ?_ ?_ h side hsmall r
  · intro side _ r
    rw [g.rightSide_initial side, envelope_zero, Pi.one_apply]
  · intro k side t ih hk r
    exact (ih (mul_le_of_succ hshare hk) r).trans (envelope_le_succ hshare hk)
  · intro k side t q x hperforms ih hk
    exact hperforms.rightSide_pivot_le hk (ih (mul_le_of_succ hshare hk))

end Game

/-- Whatever the clamp did in a run, what it returns falls short of an equilibrium by no more than
the pivots of the run can have added. -/
theorem Solver.isNearNash_of_solve {s : Solver} {g : Game ℚ n m} {e : Equilibrium ℚ n m}
    {low high : ℚ} (h : s.solve g = .ok e) (hrange : ∀ u ∈ g.payoffs, u ∈ Set.Icc low high)
    (hsmall : (2 * (min n m : ℕ) + 1) * (e.pivots + 1) * (Scalar.cutoff : ℚ) ≤ 1 / 2) :
    g.IsNearNash e.profile
      (4 * (2 * (min n m : ℕ) + 1) * (e.pivots + 1) * Scalar.cutoff * (high - low)) := by
  obtain ⟨p, hstart, -, hp, hgap, hprofile⟩ := exists_lastPair_of_solve h
  replace hp : g.pairAt? (⟨e.start, hstart⟩ : Fin n) e.pivots = some p := hp
  have htotal : (e.pivots + 1 : ℕ) * Game.clampShare n m =
      (2 * (min n m : ℕ) + 1) * (e.pivots + 1) * (Scalar.cutoff : ℚ) := by
    unfold Game.clampShare
    push_cast
    ring
  rw [← htotal] at hsmall
  have hside (side : Player) (r : Fin (side.size n m)) :
      (g.system side *ᵥ (p.tableau side).value) r ≤
        1 + 2 * ((e.pivots + 1 : ℕ) * Game.clampShare n m) := by
    rw [Game.mulVec_value_tableau hp]
    exact (Game.rightSide_le_of_pairAt? hp hsmall side r).trans
      (envelope_le (Game.clampShare_nonneg n m) hsmall)
  have hnear := Game.isNearNash_of_pairAt? hp hgap (hside .row) (hside .column) hrange
  have hslack : 2 * (1 + 2 * ((e.pivots + 1 : ℕ) * Game.clampShare n m) - 1) * (high - low) =
      4 * (2 * (min n m : ℕ) + 1) * (e.pivots + 1) * Scalar.cutoff * (high - low) := by
    rw [htotal]
    ring
  rw [hprofile, ← hslack]
  exact hnear

/-- The clamp hides that the second row earns a little more than the one that is played. -/
theorem Solver.isNearNash_of_solve_nearTied :
    Solver.solve ⟨.label 1, 1000⟩ Game.nearTied = .ok ⟨⟨#v[1, 0], #v[0, 1]⟩, 1, 4⟩ ∧
      (∀ u ∈ Game.nearTied.payoffs, u ∈ Set.Icc 1 2) ∧
      (2 * (min 2 2 : ℕ) + 1) * ((4 : ℕ) + 1) * (Scalar.cutoff : ℚ) ≤ 1 / 2 ∧
      Game.nearTied.IsNearNash ⟨#v[1, 0], #v[0, 1]⟩
        (4 * (2 * (min 2 2 : ℕ) + 1) * ((4 : ℕ) + 1) * Scalar.cutoff * (2 - 1)) := by
  have hsolve : Solver.solve ⟨.label 1, 1000⟩ Game.nearTied =
      .ok ⟨⟨#v[1, 0], #v[0, 1]⟩, 1, 4⟩ := by cbv
  have hrange : ∀ u ∈ Game.nearTied.payoffs, u ∈ Set.Icc 1 2 := by decide +kernel
  have hsmall : (2 * (min 2 2 : ℕ) + 1) * ((4 : ℕ) + 1) * (Scalar.cutoff : ℚ) ≤ 1 / 2 := by
    rw [Scalar.cutoff_eq]
    norm_num
  exact ⟨hsolve, hrange, hsmall, isNearNash_of_solve hsolve hrange hsmall⟩

end Bimatrix
