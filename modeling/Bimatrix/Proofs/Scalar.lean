import Mathlib.Tactic
import Bimatrix.Scalar

/-! # Exact scalars

The rational instance read through the ordinary order and equality.
-/
namespace Bimatrix

namespace Scalar

theorem smaller_eq_min (x y : ℚ) : smaller x y = min x y :=
  (min_def_lt y x).symm.trans (min_comm y x)

theorem larger_eq_max (x y : ℚ) : larger x y = max x y := (max_def_lt x y).symm

theorem foldl_combine? {choose : ℚ → ℚ → ℚ} (b : ℚ) (xs : List ℚ) :
    xs.foldl (combine? choose) (some b) = some (xs.foldl choose b) := by
  induction xs generalizing b with
  | nil => rfl
  | cons x xs ih => exact ih (choose b x)

theorem combine?_none (choose : ℚ → ℚ → ℚ) (x : ℚ) : combine? choose none x = some x :=
  if_pos (decide_eq_true rfl)

theorem smallest?_eq_min? (xs : List ℚ) : smallest? xs = xs.min? := by
  cases xs with
  | nil => rfl
  | cons x xs =>
    have hmin : (smaller : ℚ → ℚ → ℚ) = min := funext₂ smaller_eq_min
    rw [smallest?, List.foldl_cons, combine?_none, foldl_combine?, hmin, List.min?_cons']

theorem largest?_eq_max? (xs : List ℚ) : largest? xs = xs.max? := by
  cases xs with
  | nil => rfl
  | cons x xs =>
    have hmax : (larger : ℚ → ℚ → ℚ) = max := funext₂ larger_eq_max
    rw [largest?, List.foldl_cons, combine?_none, foldl_combine?, hmax, List.max?_cons']

theorem beq_iff {x y : ℚ} : @BEq.beq ℚ Scalar.toBEq x y = true ↔ x = y := decide_eq_true_iff

theorem half_eq : (half : ℚ) = 1 / 2 := by
  change mkRat 1 2 = 1 / 2
  norm_num [Rat.mkRat_eq_div]

theorem cutoff_eq : (cutoff : ℚ) = 1 / 1000000000000 := by
  change mkRat 1 1000000000000 = 1 / 1000000000000
  norm_num [Rat.mkRat_eq_div]

theorem cutoff_pos : (0 : ℚ) < cutoff := by
  rw [cutoff_eq]
  norm_num

end Scalar

end Bimatrix
