import Mathlib.Algebra.BigOperators.Fin
import Mathlib.Tactic
import Bimatrix.Distribution
import Bimatrix.Proofs.Scalar
import Bimatrix.Proofs.Table

/-! # Sums and distributions in exact arithmetic

The sum in eight lanes is the plain sum, and weights whose sum is not zero are divided by it.
-/
namespace Bimatrix

namespace Summation

theorem foldl_add_finRange {k : ℕ} (f : Fin k → ℚ) (a : ℚ) :
    (List.finRange k).foldl (fun s i => s + f i) a = a + ∑ i, f i := by
  have hlist (l : List (Fin k)) (b : ℚ) :
      l.foldl (fun s i => s + f i) b = b + (l.map f).sum := by
    induction l generalizing b with
    | nil => simp
    | cons i l ih => rw [List.foldl_cons, ih, List.map_cons, List.sum_cons, add_assoc]
  rw [hlist, Fin.sum_univ_def]

theorem sum_range_blocks (f : ℕ → ℚ) (b : ℕ) :
    ∑ i ∈ Finset.range (8 * b), f i =
      ∑ k ∈ Finset.range 8, ∑ q ∈ Finset.range b, f (8 * q + k) := by
  rw [Finset.sum_comm]
  induction b with
  | zero => rfl
  | succ b ih => rw [Nat.mul_succ, Finset.sum_range_add, ih, Finset.sum_range_succ _ b]

variable {n : ℕ}

/-- The terms by position, zero beyond the end. -/
def term (x : Vector ℚ n) (i : ℕ) : ℚ := if h : i < n then x[i] else 0

theorem term_of_lt (x : Vector ℚ n) {i : ℕ} (h : i < n) : term x i = x[i] := dif_pos h

theorem lane_eq_sum (x : Vector ℚ n) (k : Fin 8) :
    lane x k = ∑ q ∈ Finset.range (n / 8), term x (8 * q + k) := by
  rw [Finset.sum_range]
  refine (foldl_add_finRange _ 0).trans ?_
  rw [zero_add]
  apply Finset.sum_congr rfl
  intro q _
  rw [term_of_lt]

theorem blocks_eq_sum (x : Vector ℚ n) :
    blocks x = ∑ i ∈ Finset.range (8 * (n / 8)), term x i := by
  rw [sum_range_blocks, Finset.sum_range, Fin.sum_univ_eight]
  simp only [← lane_eq_sum]
  change 0 + (lane x 0 + lane x 4) + (lane x 1 + lane x 5) + (lane x 2 + lane x 6) +
    (lane x 3 + lane x 7) = _
  ring

theorem total_eq_sum (x : Vector ℚ n) : total x = ∑ i, x.get i := by
  have hrange : ∑ i, x.get i = ∑ i ∈ Finset.range (8 * (n / 8) + n % 8), term x i := by
    rw [Nat.div_add_mod, Finset.sum_range]
    apply Finset.sum_congr rfl
    intro i _
    rw [term_of_lt x i.isLt]
    rfl
  rw [hrange, Finset.sum_range_add, ← blocks_eq_sum]
  refine (foldl_add_finRange _ (blocks x)).trans ?_
  rw [Finset.sum_range]
  apply congrArg
  apply Finset.sum_congr rfl
  intro i _
  rw [term_of_lt]

end Summation

section Distribution

variable {α : Type} [Scalar α] {n k : ℕ}

theorem distribution_cast (h : n = k) (weights : Vector α n) :
    (distribution weights).cast h = distribution (weights.cast h) := by
  subst h
  rfl

theorem distribution_get {weights : Vector ℚ n} (h : ∑ i, weights.get i ≠ 0) (i : Fin n) :
    (distribution weights).get i = weights.get i / ∑ k, weights.get k := by
  have htotal : ¬(Summation.total weights == 0) = true := by
    rw [Summation.total_eq_sum]
    exact mt Scalar.beq_iff.mp h
  unfold distribution
  dsimp only
  rw [if_neg htotal, get_map, Summation.total_eq_sum]

end Distribution

end Bimatrix
