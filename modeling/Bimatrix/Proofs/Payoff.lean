import Mathlib.Tactic
import Bimatrix.Payoff
import Bimatrix.Proofs.Distribution

/-! # Expected payoffs in exact arithmetic

Every product with a mix is the plain sum.  A mix is a best response up to a slack when no strategy
that it plays falls short of any other by more than that, so only differences of payoffs count.
-/
namespace Bimatrix

variable {n m : ℕ}

namespace Summation

theorem dot_eq_sum (x y : Vector ℚ n) : dot x y = ∑ i, x.get i * y.get i := by
  rw [dot, total_eq_sum]
  apply Finset.sum_congr rfl
  intro i _
  exact get_zipWith _ x y i

theorem sequentialDot_eq_sum (x y : Vector ℚ n) : sequentialDot x y = ∑ i, x.get i * y.get i :=
  (foldl_add_finRange _ 0).trans (zero_add _)

end Summation

theorem Scalar.largest_le_iff {v : Vector ℚ n} (i : Fin n) {b : ℚ} :
    largest v.toList ≤ b ↔ ∀ k, v.get k ≤ b := by
  have hmem (k : Fin n) : v.get k ∈ v.toList := by simp [get_eq_getElem]
  obtain ⟨a, ha⟩ := Option.isSome_iff_exists.mp (List.isSome_max?_of_mem (hmem i))
  have hlargest : largest v.toList = a := by
    rw [largest, largest?_eq_max?, ha]
    rfl
  rw [hlargest, List.max?_le_iff ha]
  constructor
  · intro h k
    exact h _ (hmem k)
  · intro h u hu
    obtain ⟨k, hk, rfl⟩ := List.mem_iff_getElem.mp hu
    exact h ⟨k, by simpa using hk⟩

namespace Game

theorem rowPayoffs_get (g : Game ℚ n m) (s : Profile ℚ n m) (i : Fin n) :
    (g.rowPayoffs s).get i = ∑ j, g.row.entry i j * s.column.get j := by
  rw [rowPayoffs, get_map, Summation.dot_eq_sum]
  rfl

/-- A lone column is summed in another order, to the same result. -/
theorem columnPayoffs_get (g : Game ℚ n m) (s : Profile ℚ n m) (j : Fin m) :
    (g.columnPayoffs s).get j = ∑ i, g.column.entry i j * s.row.get i := by
  have hsum : ∑ i, s.row.get i * (Table.column g.column j).get i =
      ∑ i, g.column.entry i j * s.row.get i := by
    apply Finset.sum_congr rfl
    intro i _
    rw [Table.get_column, mul_comm]
  rw [columnPayoffs, get_ofFn]
  dsimp only
  split_ifs
  · rw [Summation.dot_eq_sum, hsum]
  · rw [Summation.sequentialDot_eq_sum, hsum]

variable {mix payoffs payoffs' : Vector ℚ n} {ε slack c : ℚ}

theorem isBestResponse_iff : isBestResponse mix payoffs ε slack = true ↔
    ∀ i, mix.get i ≤ ε ∨ ∀ k, payoffs.get k ≤ payoffs.get i + slack := by
  simp only [isBestResponse, List.all_eq_true, List.mem_finRange, forall_const, Bool.or_eq_true,
    decide_eq_true_eq]
  apply forall_congr'
  intro i
  have hfloor : Scalar.largest payoffs.toList - slack ≤ payoffs.get i ↔
      ∀ k, payoffs.get k ≤ payoffs.get i + slack := by
    rw [sub_le_iff_le_add, Scalar.largest_le_iff i]
  exact or_congr Iff.rfl hfloor

/-- Payoffs all of whose differences are the same positive multiple have the same best responses,
the slack being multiplied as well. -/
theorem isBestResponse_eq_of_sub_eq (hc : 0 < c)
    (h : ∀ i k, payoffs'.get i - payoffs'.get k = c * (payoffs.get i - payoffs.get k)) :
    isBestResponse mix payoffs' ε (c * slack) = isBestResponse mix payoffs ε slack := by
  rw [Bool.eq_iff_iff, isBestResponse_iff, isBestResponse_iff]
  apply forall_congr'
  intro i
  apply or_congr Iff.rfl
  apply forall_congr'
  intro k
  rw [← sub_le_iff_le_add', ← sub_le_iff_le_add', h, mul_le_mul_iff_right₀ hc]

end Game

end Bimatrix
