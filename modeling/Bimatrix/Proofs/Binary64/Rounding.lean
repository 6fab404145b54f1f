import Mathlib.Data.Int.Log
import Mathlib.Tactic

/-! # Rounding to binary64

The exact result of an operation is rounded to a multiple of a power of two that depends on its
magnitude: 53 bits are kept, fewer near zero.  Rounding is odd, increasing, and leaves the numbers of
the format alone.
-/
namespace Bimatrix.Binary64

def nearestEven (q : ℚ) : ℤ :=
  if Int.fract q < 1 / 2 then ⌊q⌋
  else if 1 / 2 < Int.fract q then ⌊q⌋ + 1
  else ⌊q⌋ + ⌊q⌋ % 2

theorem nearestEven_intCast (k : ℤ) : nearestEven k = k := by
  simp [nearestEven]

theorem floor_le_nearestEven (q : ℚ) : ⌊q⌋ ≤ nearestEven q := by
  unfold nearestEven
  split_ifs <;> omega

theorem nearestEven_le_floor_add_one (q : ℚ) : nearestEven q ≤ ⌊q⌋ + 1 := by
  unfold nearestEven
  split_ifs <;> omega

theorem nearestEven_mono {p q : ℚ} (h : p ≤ q) : nearestEven p ≤ nearestEven q := by
  obtain hlt | heq := (Int.floor_le_floor h).lt_or_eq
  · calc nearestEven p ≤ ⌊p⌋ + 1 := nearestEven_le_floor_add_one p
      _ ≤ ⌊q⌋ := hlt
      _ ≤ nearestEven q := floor_le_nearestEven q
  · -- Between two integers, the larger fraction is rounded up whenever the smaller is.
    have hfract : Int.fract p ≤ Int.fract q := by
      rw [Int.fract, Int.fract, heq]
      linarith
    unfold nearestEven
    rw [heq]
    split_ifs <;> first | omega | linarith

theorem nearestEven_neg (q : ℚ) : nearestEven (-q) = -nearestEven q := by
  by_cases hq : Int.fract q = 0
  · have hfloor : (⌊q⌋ : ℚ) = q := by
      rw [← Int.floor_add_fract q, hq, add_zero, Int.floor_intCast]
    rw [← hfloor, nearestEven_intCast, ← Int.cast_neg, nearestEven_intCast]
  · have hfract := Int.fract_neg hq
    have hfloor : ⌊-q⌋ = -⌊q⌋ - 1 := by
      have hcast : (⌊-q⌋ : ℚ) = -⌊q⌋ - 1 := by
        have h1 := Int.floor_add_fract q
        have h2 := Int.floor_add_fract (-q)
        linarith
      exact_mod_cast hcast
    unfold nearestEven
    rw [hfract, hfloor]
    split_ifs <;> first | omega | linarith

theorem abs_nearestEven_sub_le (q : ℚ) : |nearestEven q - q| ≤ 1 / 2 := by
  have hq := Int.floor_add_fract q
  have hnonneg := Int.fract_nonneg q
  have hlt := Int.fract_lt_one q
  have hparity : (⌊q⌋ % 2 : ℤ) = 0 ∨ (⌊q⌋ % 2 : ℤ) = 1 := by omega
  rw [abs_le]
  unfold nearestEven
  split_ifs with hbelow habove
  · constructor <;> linarith
  · push_cast
    constructor <;> linarith
  · obtain hp | hp := hparity <;> rw [hp] <;> push_cast <;> constructor <;> linarith

/-- The power of two whose multiples are the numbers of the format near `x`. -/
def unit (x : ℚ) : ℤ := max (Int.log 2 |x| - 52) (-1074)

/-- A number rounded to the format, without a bound above. -/
def rounded (x : ℚ) : ℚ := nearestEven (x / 2 ^ unit x) * 2 ^ unit x

theorem neg_1074_le_unit (x : ℚ) : -1074 ≤ unit x := le_max_right _ _

theorem unit_neg (x : ℚ) : unit (-x) = unit x := by rw [unit, unit, abs_neg]

theorem rounded_neg (x : ℚ) : rounded (-x) = -rounded x := by
  rw [rounded, rounded, unit_neg, neg_div, nearestEven_neg, Int.cast_neg, neg_mul]

theorem rounded_zero : rounded 0 = 0 := by
  have h := nearestEven_intCast 0
  rw [Int.cast_zero] at h
  rw [rounded, zero_div, h, Int.cast_zero, zero_mul]

theorem unit_le_iff {x : ℚ} {e : ℤ} (hx : x ≠ 0) :
    unit x ≤ e ↔ |x| < 2 ^ (e + 53) ∧ -1074 ≤ e := by
  have hlog := Int.lt_zpow_iff_log_lt (b := 2) one_lt_two (x := e + 53) (abs_pos.mpr hx)
  rw [Nat.cast_ofNat] at hlog
  rw [unit, max_le_iff, hlog]
  exact and_congr_left fun _ => by omega

theorem unit_le_unit {x y : ℚ} (hx : x ≠ 0) (h : |x| ≤ |y|) : unit x ≤ unit y :=
  max_le_max (sub_le_sub_right (Int.log_mono_right (abs_pos.mpr hx) h) 52) le_rfl

theorem abs_lt_of_unit (x : ℚ) : |x| < 2 ^ (unit x + 53) := by
  obtain rfl | hx := eq_or_ne x 0
  · rw [abs_zero]
    positivity
  · exact ((unit_le_iff hx).mp le_rfl).1

theorem le_abs_of_unit {x : ℚ} (hx : x ≠ 0) (h : -1074 < unit x) :
    2 ^ (unit x + 52) ≤ |x| := by
  have hlog : unit x + 52 = Int.log 2 |x| := by
    unfold unit at h ⊢
    omega
  have hpow := Int.zpow_log_le_self (b := 2) one_lt_two (abs_pos.mpr hx)
  rwa [Nat.cast_ofNat, ← hlog] at hpow

theorem mul_zpow_div {k : ℤ} {e t : ℤ} (h : t ≤ e) :
    (k * 2 ^ e / 2 ^ t : ℚ) = ((k * 2 ^ (e - t).toNat : ℤ) : ℚ) := by
  have hsub : (2 : ℚ) ^ e / 2 ^ t = 2 ^ (e - t).toNat := by
    rw [← zpow_sub₀ two_ne_zero, ← zpow_natCast, Int.toNat_of_nonneg (by omega)]
  rw [mul_div_assoc, hsub]
  push_cast
  rfl

/-- A multiple of the unit bounds a rounded number if it bounds the number. -/
theorem rounded_le_of_le {x : ℚ} {k e : ℤ} (h : x ≤ k * 2 ^ e) (he : unit x ≤ e) :
    rounded x ≤ k * 2 ^ e := by
  have hpos : (0 : ℚ) < 2 ^ unit x := by positivity
  have hquot : (nearestEven (x / 2 ^ unit x) : ℚ) ≤ k * 2 ^ e / 2 ^ unit x := by
    have hmono := nearestEven_mono (div_le_div_of_nonneg_right h hpos.le)
    rw [mul_zpow_div he, nearestEven_intCast] at hmono
    rw [mul_zpow_div he]
    exact_mod_cast hmono
  rwa [le_div_iff₀ hpos] at hquot

theorem le_rounded_of_le {x : ℚ} {k e : ℤ} (h : k * 2 ^ e ≤ x) (he : unit x ≤ e) :
    k * 2 ^ e ≤ rounded x := by
  have hneg := rounded_le_of_le (x := -x) (k := -k) (e := e) (by push_cast; linarith)
    (by rwa [unit_neg])
  rw [rounded_neg] at hneg
  push_cast at hneg
  linarith

/-- A number of the format: a multiple, by less than 2⁵³, of a power of two that is not too small. -/
theorem rounded_of_representable {k e : ℤ} (hk : |k| < 2 ^ 53) (he : -1074 ≤ e) :
    rounded (k * 2 ^ e) = k * 2 ^ e := by
  obtain rfl | hne := eq_or_ne k 0
  · simp [rounded_zero]
  have hpos : (0 : ℚ) < 2 ^ e := by positivity
  have hunit : unit (k * 2 ^ e) ≤ e := by
    rw [unit_le_iff (by positivity)]
    refine ⟨?_, he⟩
    rw [abs_mul, abs_of_pos hpos, zpow_add₀ two_ne_zero, mul_comm]
    exact mul_lt_mul_of_pos_left (by exact_mod_cast hk) hpos
  exact le_antisymm (rounded_le_of_le le_rfl hunit) (le_rounded_of_le le_rfl hunit)

theorem rounded_nonneg {x : ℚ} (h : 0 ≤ x) : 0 ≤ rounded x := by
  simpa using le_rounded_of_le (x := x) (k := 0) (e := unit x) (by simpa using h) le_rfl

theorem rounded_mono_of_pos {x y : ℚ} (hx : 0 < x) (h : x ≤ y) : rounded x ≤ rounded y := by
  have hy : 0 < y := hx.trans_le h
  have hle : unit x ≤ unit y := unit_le_unit hx.ne' (by rwa [abs_of_pos hx, abs_of_pos hy])
  obtain hlt | heq := hle.lt_or_eq
  · -- A power of two lies between the two numbers, and rounding crosses none.
    have hbelow : x ≤ ((1 : ℤ) : ℚ) * 2 ^ (unit y + 52) := by
      have hle' : unit x + 53 ≤ unit y + 52 := by omega
      calc x = |x| := (abs_of_pos hx).symm
        _ ≤ 2 ^ (unit x + 53) := (abs_lt_of_unit x).le
        _ ≤ 2 ^ (unit y + 52) := zpow_le_zpow_right₀ one_le_two hle'
        _ = ((1 : ℤ) : ℚ) * 2 ^ (unit y + 52) := by push_cast; ring
    have habove : ((1 : ℤ) : ℚ) * 2 ^ (unit y + 52) ≤ y := by
      have hpow := le_abs_of_unit hy.ne' ((neg_1074_le_unit x).trans_lt hlt)
      rw [abs_of_pos hy] at hpow
      push_cast
      linarith
    exact (rounded_le_of_le hbelow (by omega)).trans (le_rounded_of_le habove (by omega))
  · unfold rounded
    rw [heq]
    have hpos : (0 : ℚ) < 2 ^ unit y := by positivity
    have hmono := nearestEven_mono (div_le_div_of_nonneg_right h hpos.le)
    exact mul_le_mul_of_nonneg_right (by exact_mod_cast hmono) hpos.le

theorem rounded_mono {x y : ℚ} (h : x ≤ y) : rounded x ≤ rounded y := by
  obtain hx | hx := lt_or_ge 0 x
  · exact rounded_mono_of_pos hx h
  · obtain hy | hy := lt_or_ge y 0
    · have hneg := rounded_mono_of_pos (neg_pos.mpr hy) (neg_le_neg h)
      rw [rounded_neg, rounded_neg] at hneg
      linarith
    · have hneg := rounded_nonneg (neg_nonneg.mpr hx)
      rw [rounded_neg] at hneg
      linarith [rounded_nonneg hy]

theorem abs_rounded (x : ℚ) : |rounded x| = rounded |x| := by
  obtain hx | hx := le_total 0 x
  · rw [abs_of_nonneg hx, abs_of_nonneg (rounded_nonneg hx)]
  · have hneg := rounded_nonneg (neg_nonneg.mpr hx)
    rw [abs_of_nonpos hx, rounded_neg, abs_of_nonpos]
    rw [rounded_neg] at hneg
    linarith

/-- Rounding is off by at most half a unit. -/
theorem abs_rounded_sub_le (x : ℚ) : |rounded x - x| ≤ 2 ^ (unit x - 1) := by
  have hpos : (0 : ℚ) < 2 ^ unit x := by positivity
  have hfactor : rounded x - x =
      (nearestEven (x / 2 ^ unit x) - x / 2 ^ unit x) * 2 ^ unit x := by
    rw [rounded]
    field_simp
  rw [hfactor, abs_mul, abs_of_pos hpos, zpow_sub_one₀ two_ne_zero, mul_comm]
  have hle := abs_nearestEven_sub_le (x / 2 ^ unit x)
  rw [one_div] at hle
  exact mul_le_mul_of_nonneg_left hle hpos.le

/-- A rounded number is a multiple of the least unit. -/
theorem exists_rounded_eq (x : ℚ) : ∃ k : ℤ, rounded x = k * 2 ^ (-1074 : ℤ) := by
  have hpow := mul_zpow_div (k := nearestEven (x / 2 ^ unit x)) (neg_1074_le_unit x)
  rw [div_eq_iff (by positivity)] at hpow
  exact ⟨_, hpow⟩

end Bimatrix.Binary64
