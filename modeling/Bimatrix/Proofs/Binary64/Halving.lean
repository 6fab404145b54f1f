import Mathlib.Tactic
import Bimatrix.Scalar
import Bimatrix.Proofs.Binary64.Arithmetic

/-! # Halves in binary64

Halving a finite float is exact, but for the numbers whose unit is the least one, and brings every
distance back into the format.
-/
namespace Bimatrix.Binary64

theorem value_one : value 1 = 1 := by
  have hunpack : (1 : Float).toModel.unpack = .finite .positive (2 ^ 52) (-52) (by decide) := rfl
  rw [value, hunpack, rational_positive]
  norm_num

theorem value_two : value 2 = 2 := by
  have hunpack : (2 : Float).toModel.unpack = .finite .positive (2 ^ 52) (-51) (by decide) := rfl
  rw [value, hunpack, rational_positive]
  norm_num

theorem value_zero : value 0 = 0 := rfl

theorem value_half : value Scalar.half = 1 / 2 := by
  have hunpack : (Scalar.half : Float).toModel.unpack =
      .finite .positive (2 ^ 52) (-53) (by decide) := rfl
  rw [value, hunpack, rational_positive]
  norm_num

theorem rounded_one : rounded 1 = 1 := by
  have h := rounded_of_representable (k := 1) (e := 0) (by decide) (by decide)
  simpa using h

theorem rounded_two : rounded 2 = 2 := by
  have h := rounded_of_representable (k := 2) (e := 0) (by decide) (by decide)
  simpa using h

theorem two_le_largest : 2 ≤ largest := by
  have hpow : (2 : ℚ) ^ (1 : ℤ) ≤ 2 ^ (971 : ℤ) := zpow_le_zpow_right₀ one_le_two (by decide)
  rw [largest]
  rw [zpow_one] at hpow
  generalize (2 : ℚ) ^ (971 : ℤ) = p at hpow ⊢
  linarith

/-- Half of the greatest finite number is a number of the format. -/
theorem rounded_half_largest : rounded (largest / 2) = largest / 2 := by
  have hhalf : largest / 2 = ((2 ^ 53 - 1 : ℤ) : ℚ) * 2 ^ (970 : ℤ) := by
    have hpow : (2 : ℚ) ^ (971 : ℤ) = 2 ^ (970 : ℤ) * 2 := by
      rw [← zpow_add_one₀ two_ne_zero]
      rfl
    rw [largest, hpow, Int.cast_sub, Int.cast_pow, Int.cast_ofNat, Int.cast_one]
    generalize (2 : ℚ) ^ (970 : ℤ) = p
    ring
  rw [hhalf]
  exact rounded_of_representable (by decide) (by decide)

theorem rounded_largest : rounded largest = largest := by
  have hlargest : largest = ((2 ^ 53 - 1 : ℤ) : ℚ) * 2 ^ (971 : ℤ) := by
    rw [largest, Int.cast_sub, Int.cast_pow, Int.cast_ofNat, Int.cast_one]
  rw [hlargest]
  exact rounded_of_representable (by decide) (by decide)

theorem abs_rounded_le {x : ℚ} (h : |x| ≤ largest) : |rounded x| ≤ largest := by
  rw [abs_rounded, ← rounded_largest]
  exact rounded_mono h

variable {x y : Float} {v w : ℚ}

theorem abs_rounded_half_le (hx : x.isFinite = true) : |rounded (value x / 2)| ≤ largest / 2 := by
  have hle : |value x / 2| ≤ largest / 2 := by
    rw [abs_div, abs_two]
    linarith [abs_value_le hx]
  rw [abs_rounded, ← rounded_half_largest]
  exact rounded_mono hle

theorem value_mul_half (hx : x.isFinite = true) :
    (x * Scalar.half).isFinite = true ∧ value (x * Scalar.half) = rounded (value x / 2) := by
  have hprod : value x * value Scalar.half = value x / 2 := by
    rw [value_half]
    ring
  have hmul := value_mul (y := Scalar.half) hx rfl (by
    rw [hprod]
    linarith [abs_rounded_half_le hx, largest_pos])
  rwa [hprod] at hmul

/-- Halving is off by at most half of the least unit, for it is exact unless the number has that
unit. -/
theorem abs_rounded_half_sub_le (hx : x.isFinite = true) :
    |rounded (value x / 2) - value x / 2| ≤ 2 ^ (-1075 : ℤ) := by
  have hcanonical := canonical_of_isFinite hx
  unfold value
  generalize x.toModel.unpack = u at hcanonical ⊢
  cases hcanonical with
  | zero s =>
    rw [rational_zero, zero_div, rounded_zero, sub_zero, abs_zero]
    positivity
  | @finite s m e hm bits least normal =>
    have habs : |s.apply m| = (m : ℤ) := by exact_mod_cast abs_apply s m
    have hbits : |s.apply m| < 2 ^ 53 := by
      rw [habs]
      exact_mod_cast bits
    have hhalf : rational (.finite s m e hm) / 2 = s.apply m * 2 ^ (e - 1) := by
      rw [rational, zpow_sub_one₀ two_ne_zero]
      ring
    obtain hlt | rfl := least.lt_or_eq
    · rw [hhalf, rounded_of_representable hbits (by omega), sub_self, abs_zero]
      positivity
    · have hne : rational (.finite s m (-1074) hm) / 2 ≠ 0 := by
        rw [← abs_pos, abs_div, abs_rational_finite]
        positivity
      have hunit : unit (rational (.finite s m (-1074) hm) / 2) = -1074 := by
        refine le_antisymm ((unit_le_iff hne).mpr ⟨?_, le_rfl⟩) (neg_1074_le_unit _)
        have hm' : (m : ℚ) < 2 ^ 53 := by exact_mod_cast bits
        have hpos : (0 : ℚ) < 2 ^ (-1074 : ℤ) := by positivity
        rw [abs_div, abs_two, abs_rational_finite, zpow_add₀ two_ne_zero]
        generalize (2 : ℚ) ^ (-1074 : ℤ) = p at hpos
        have hlt := mul_lt_mul_of_pos_right hm' hpos
        have hnonneg : (0 : ℚ) ≤ m * p := by positivity
        exact_mod_cast (half_le_self hnonneg).trans_lt (hlt.trans_eq (mul_comm _ _))
      have hle := abs_rounded_sub_le (rational (.finite s m (-1074) hm) / 2)
      rwa [hunit] at hle

theorem half_mono (h : v ≤ w) : rounded (v / 2) ≤ rounded (w / 2) :=
  rounded_mono (div_le_div_of_nonneg_right h zero_le_two)

/-- The distance of two numbers of the format that differ is not rounded to zero. -/
theorem rounded_sub_pos (h : rounded v < rounded w) : 0 < rounded (rounded w - rounded v) := by
  obtain ⟨k, hk⟩ := exists_rounded_eq v
  obtain ⟨l, hl⟩ := exists_rounded_eq w
  have hpos : (0 : ℚ) < 2 ^ (-1074 : ℤ) := by positivity
  have hleast := rounded_of_representable (k := 1) (e := -1074) (by decide) le_rfl
  have hkl : (1 : ℚ) ≤ l - k := by
    rw [hk, hl] at h
    have hlt : k < l := by exact_mod_cast lt_of_mul_lt_mul_right h hpos.le
    have hle : (k + 1 : ℚ) ≤ l := by exact_mod_cast hlt
    linarith
  have hle : ((1 : ℤ) : ℚ) * 2 ^ (-1074 : ℤ) ≤ rounded w - rounded v := by
    rw [hk, hl, ← sub_mul, Int.cast_one]
    exact mul_le_mul_of_nonneg_right hkl hpos.le
  have hmono := rounded_mono hle
  rw [hleast, Int.cast_one, one_mul] at hmono
  exact hpos.trans_le hmono

/-- The difference of two halves is a finite float. -/
theorem value_sub_halves (hx : x.isFinite = true) (hy : y.isFinite = true) :
    (x * Scalar.half - y * Scalar.half).isFinite = true ∧
      value (x * Scalar.half - y * Scalar.half) =
        rounded (rounded (value x / 2) - rounded (value y / 2)) := by
  obtain ⟨hfx, hvx⟩ := value_mul_half hx
  obtain ⟨hfy, hvy⟩ := value_mul_half hy
  have hle : |rounded (value x / 2) - rounded (value y / 2)| ≤ largest := by
    have htriangle := abs_sub (rounded (value x / 2)) (rounded (value y / 2))
    linarith [abs_rounded_half_le hx, abs_rounded_half_le hy]
  have hsub := value_sub hfx hfy (by rw [hvx, hvy]; exact abs_rounded_le hle)
  rwa [hvx, hvy] at hsub

/-- Numbers that lie far enough apart still differ when they are halved. -/
theorem half_lt_half (hx : x.isFinite = true) (hy : y.isFinite = true)
    (h : 2 ^ (-1073 : ℤ) < value y - value x) : x * 0.5 < y * 0.5 := by
  obtain ⟨hfx, hvx⟩ := value_mul_half hx
  obtain ⟨hfy, hvy⟩ := value_mul_half hy
  refine (lt_iff_value_lt hfx hfy).mpr ?_
  rw [hvx, hvy]
  have hpow : (2 : ℚ) ^ (-1073 : ℤ) = 2 ^ (-1075 : ℤ) * 4 := by
    rw [show (4 : ℚ) = 2 ^ (2 : ℤ) by norm_num, ← zpow_add₀ two_ne_zero]
    rfl
  have hlow := (abs_le.mp (abs_rounded_half_sub_le hx)).2
  have hhigh := (abs_le.mp (abs_rounded_half_sub_le hy)).1
  rw [hpow] at h
  generalize (2 : ℚ) ^ (-1075 : ℤ) = p at h hlow hhigh
  linarith

end Bimatrix.Binary64
