import Mathlib.Tactic
import Bimatrix.Decimal.Nearest
import Bimatrix.Decimal.Stepwise
import Bimatrix.Proofs.Binary64.Halving
import Bimatrix.Proofs.Decimal.Numeral

/-! # Short numerals

The digits of a short numeral and the power of ten that they count are exact in binary64.  The one
multiplication or division that joins them gives the nearest number, in both ways of reading.
-/
namespace Bimatrix.Numeral

open Binary64 Float.Model Float.Model.UnpackedFloat

theorem ofDigits_concat (ds : List ℕ) (d : ℕ) : ofDigits (ds ++ [d]) = 10 * ofDigits ds + d := by
  simp [ofDigits]

theorem ofDigits_le_append (ds ds' : List ℕ) : ofDigits ds ≤ ofDigits (ds ++ ds') := by
  induction ds' using List.reverseRecOn with
  | nil => rw [List.append_nil]
  | append_singleton ds' d ih =>
    rw [← List.append_assoc, ofDigits_concat]
    omega

theorem ofDigits_lt {ds : List ℕ} (h : ∀ d ∈ ds, d < 10) : ofDigits ds < 10 ^ ds.length := by
  induction ds using List.reverseRecOn with
  | nil => decide
  | append_singleton ds d ih =>
    rw [List.forall_mem_append] at h
    have hlt := ih h.1
    have hd := h.2 d (List.mem_singleton_self d)
    rw [ofDigits_concat, List.length_append, List.length_singleton, pow_succ]
    omega

theorem ofDigits_dropWhile (ds : List ℕ) : ofDigits (ds.dropWhile (· == 0)) = ofDigits ds := by
  induction ds with
  | nil => rfl
  | cons d ds ih =>
    by_cases hd : d = 0
    · subst hd
      exact ih
    · rw [List.dropWhile_cons_of_neg (by simpa using hd)]

theorem absorb_ofDigits (taken ds : List ℕ) (h : ofDigits (taken ++ ds) < UInt64.size) :
    absorb (ofDigits taken) ds = (ofDigits (taken ++ ds), []) := by
  induction ds generalizing taken with
  | nil => rw [absorb, List.append_nil]
  | cons d ds ih =>
    have happend : taken ++ d :: ds = (taken ++ [d]) ++ ds := by simp
    rw [happend] at h ⊢
    have hfits := (ofDigits_le_append (taken ++ [d]) ds).trans_lt h
    rw [absorb, ← ofDigits_concat, if_pos hfits, ih _ h]

variable {x : Numeral}

theorem kept_eq (h : x.significand < UInt64.size) :
    x.kept = (x.significand, -(x.fraction.length : ℤ)) := by
  have hwhole := absorb_ofDigits [] x.whole ((ofDigits_le_append _ x.fraction).trans_lt h)
  have hfraction := absorb_ofDigits x.whole x.fraction h
  rw [List.nil_append] at hwhole
  change absorb 0 x.whole = _ at hwhole
  simp [kept, significand, hwhole, hfraction]

variable {m k : ℕ}

theorem getElem?_powersOfTen (h : k ≤ 22) :
    Float.exactlyRepresentablePowersOfTen[k]? = some (powerOfTen k) := by
  have hall : ∀ k : Fin 23,
      Float.exactlyRepresentablePowersOfTen[k.val]? = some (powerOfTen k.val) := by decide +kernel
  exact hall ⟨k, Nat.lt_succ_of_le h⟩

theorem value_powerOfTen (h : k ≤ 22) :
    (powerOfTen k).isFinite = true ∧ value (powerOfTen k) = 10 ^ k := by
  have hall : ∀ k : Fin 23, (powerOfTen k.val).isFinite = true ∧
      value (powerOfTen k.val) = 10 ^ k.val := by decide +kernel
  exact hall ⟨k, Nat.lt_succ_of_le h⟩

theorem abs_rounded_natCast_le {n : ℕ} (h : n ≤ (2 ^ 53 - 1) * 2 ^ 971) :
    |rounded n| ≤ largest := by
  have hlargest : (((2 ^ 53 - 1) * 2 ^ 971 : ℕ) : ℚ) = largest := by
    rw [largest, Nat.cast_mul, Nat.cast_pow 2 971, Nat.cast_ofNat, ← zpow_natCast]
    norm_num only
  refine abs_rounded_le ?_
  rw [Nat.abs_cast, ← hlargest]
  exact Nat.cast_le.mpr h

theorem ofScientific_one_spec (h : k ≤ topPower) :
    Canonical (UnpackedFloat.ofScientific .binary64 1 k) ∧
      rational (UnpackedFloat.ofScientific .binary64 1 k) = rounded (10 ^ k) := by
  have hrange : ¬(k : ℤ) > 2 ^ Format.binary64.exponentBits := by
    unfold topPower at h
    change ¬(k : ℤ) > 2 ^ 11
    omega
  have hpositive : Sign.positive * Sign.positive = .positive := rfl
  have hmantissa : Format.binary64.mantissaBits = 53 := rfl
  rw [UnpackedFloat.ofScientific, dif_neg one_ne_zero, if_neg hrange, if_neg (by omega),
    if_pos (Int.natCast_nonneg k), UnpackedFloat.mul, Nat.one_shiftLeft, add_zero,
    Int.toNat_natCast, hpositive, hmantissa, Nat.cast_ofNat]
  have hbits : 2 ^ 52 ≤ 2 ^ 53 * 10 ^ k :=
    (by decide : 2 ^ 52 ≤ 2 ^ 53).trans (Nat.le_mul_of_pos_right _ (by positivity))
  have htarget : -53 ≤ Format.binary64.targetExponent (totalExponent (2 ^ 53 * 10 ^ k) (-53)) := by
    have hlog : 52 ≤ (2 ^ 53 * 10 ^ k).log2 := (Nat.le_log2 (by positivity)).mpr hbits
    rw [targetExponent_eq, totalExponent]
    omega
  obtain ⟨hcanonical, hrational⟩ := roundWithAccuracy_spec .positive
    (approximates_exact (2 ^ 53 * 10 ^ k)) (by positivity) (.inl (by positivity)) htarget
  have hvalue : ((2 ^ 53 * 10 ^ k : ℕ) : ℚ) * 2 ^ (-53 : ℤ) = 10 ^ k := by
    push_cast
    ring
  have hone : (Sign.positive.apply 1 : ℚ) = 1 := rfl
  rw [hvalue, hone, one_mul] at hrational
  exact ⟨hcanonical, hrational⟩

theorem isFinite_powerOfTen (h : k ≤ topPower) :
    (powerOfTen k).isFinite = true ∧ 0 < value (powerOfTen k) := by
  by_cases hk : k ≤ 22
  · obtain ⟨hfinite, hvalue⟩ := value_powerOfTen hk
    rw [hvalue]
    exact ⟨hfinite, by positivity⟩
  · have hmodel : powerOfTen k = .ofModel (.pack (UnpackedFloat.ofScientific .binary64 1 k)) :=
      dif_neg (by omega)
    have hle : 10 ^ k ≤ (2 ^ 53 - 1) * 2 ^ 971 :=
      (Nat.pow_le_pow_right (by decide) h).trans (by decide +kernel)
    have hfits : |rounded ((10 : ℚ) ^ k)| ≤ largest := by
      exact_mod_cast abs_rounded_natCast_le hle
    obtain ⟨hcanonical, hrational⟩ := ofScientific_one_spec h
    obtain ⟨hfinite, hvalue⟩ := value_pack hcanonical (by rwa [hrational])
    rw [hmodel, hvalue, hrational]
    refine ⟨hfinite, ?_⟩
    calc (0 : ℚ) < rounded 1 := by rw [rounded_one]; exact one_pos
      _ ≤ rounded (10 ^ k) := rounded_mono (one_le_pow₀ (by norm_num))

theorem ofScientific_eq (hm : m < 2 ^ 53) (hk : k ≤ 22) (s : Bool) :
    Float.ofScientific m s k =
      if s then m.toUInt64.toFloat / powerOfTen k else m.toUInt64.toFloat * powerOfTen k := by
  obtain ⟨hlt, htable⟩ := Array.getElem?_eq_some_iff.mp (getElem?_powersOfTen hk)
  rw [← htable]
  exact dif_pos ⟨hm, hk⟩

theorem value_mul_powerOfTen (hm : m < 2 ^ 53) (hk : k ≤ 22) :
    (m.toUInt64.toFloat * powerOfTen k).isFinite = true ∧
      value (m.toUInt64.toFloat * powerOfTen k) = rounded (m * 10 ^ k) := by
  obtain ⟨hfinite, hvalue⟩ := value_toFloat hm
  obtain ⟨hfinite', hvalue'⟩ := value_powerOfTen hk
  have hle : m * 10 ^ k ≤ (2 ^ 53 - 1) * 2 ^ 971 :=
    (Nat.mul_le_mul hm.le (Nat.pow_le_pow_right (by decide) hk)).trans (by decide +kernel)
  have hfits : |rounded ((m : ℚ) * 10 ^ k)| ≤ largest := by
    exact_mod_cast abs_rounded_natCast_le hle
  have hmul := value_mul hfinite hfinite' (by rwa [hvalue, hvalue'])
  rwa [hvalue, hvalue'] at hmul

theorem value_div_powerOfTen (hm : m < 2 ^ 53) (hk : k ≤ 22) :
    (m.toUInt64.toFloat / powerOfTen k).isFinite = true ∧
      value (m.toUInt64.toFloat / powerOfTen k) = rounded (m / 10 ^ k) := by
  obtain ⟨hfinite, hvalue⟩ := value_toFloat hm
  obtain ⟨hfinite', hvalue'⟩ := value_powerOfTen hk
  have hle : |(m : ℚ)| ≤ largest := by
    rw [← hvalue]
    exact abs_value_le hfinite
  have hfits : |rounded ((m : ℚ) / 10 ^ k)| ≤ largest := by
    refine abs_rounded_le (le_trans ?_ hle)
    rw [abs_div, abs_of_pos (by positivity : (0 : ℚ) < 10 ^ k)]
    exact div_le_self (abs_nonneg _) (one_le_pow₀ (by norm_num))
  have hdiv := value_div hfinite hfinite' (by rw [hvalue']; positivity) (by rwa [hvalue, hvalue'])
  rwa [hvalue, hvalue'] at hdiv

theorem ofNat_eq (hm : m < 2 ^ 53) : Float.ofNat m = m.toUInt64.toFloat := by
  obtain rfl | hpos := Nat.eq_zero_or_pos m
  · rfl
  · obtain ⟨hfinite, hvalue⟩ := value_toFloat hm
    have hone := value_mul_powerOfTen hm (Nat.zero_le 22)
    rw [pow_zero, mul_one, ← hvalue, rounded_value hfinite] at hone
    have hne : value m.toUInt64.toFloat ≠ 0 := by
      rw [hvalue]
      exact_mod_cast hpos.ne'
    have hunit := ofScientific_eq hm (Nat.zero_le 22) false
    rw [if_neg Bool.false_ne_true] at hunit
    exact hunit.trans (eq_of_value_eq hone.1 hfinite hone.2 (by rwa [hone.2]))

/-- Digits and a power of ten that are both exact are joined by one rounded operation. -/
theorem value_ofScientific (hm : m < 2 ^ 53) {e : ℤ} (he : e.natAbs ≤ 22) :
    (Float.ofScientific m (decide (e < 0)) e.natAbs).isFinite = true ∧
      value (Float.ofScientific m (decide (e < 0)) e.natAbs) = rounded (m * 10 ^ e) := by
  rw [ofScientific_eq hm he]
  by_cases hneg : e < 0
  · have hpow : (m * 10 ^ e : ℚ) = m / 10 ^ e.natAbs := by
      rw [div_eq_mul_inv, ← zpow_natCast, ← zpow_neg, Int.ofNat_natAbs_of_nonpos hneg.le, neg_neg]
    rw [if_pos (decide_eq_true hneg), hpow]
    exact value_div_powerOfTen hm he
  · have hpow : (m * 10 ^ e : ℚ) = m * 10 ^ e.natAbs := by
      rw [← zpow_natCast, Int.natAbs_of_nonneg (not_lt.mp hneg)]
    rw [if_neg (by simpa using hneg), hpow]
    exact value_mul_powerOfTen hm he

def significantDigits (x : Numeral) : List ℕ := (x.whole ++ x.fraction).dropWhile (· == 0)

/-- Zero, or at most fifteen significant digits, the last of which counts a power of ten between
10⁻²² and 10²². -/
inductive Short (x : Numeral) : Prop
  | zero (h : x.significand = 0)
  | exact (digits : x.significantDigits.length ≤ 15) (scale : x.scale.natAbs ≤ 22)
      (exponent : x.exponent.natAbs ≤ exponentLimit)

instance (x : Numeral) : Decidable x.Short :=
  decidable_of_iff (x.significand = 0 ∨ x.significantDigits.length ≤ 15 ∧ x.scale.natAbs ≤ 22 ∧
      x.exponent.natAbs ≤ exponentLimit) <| by
    constructor
    · rintro (hzero | ⟨hdigits, hscale, hexponent⟩)
      · exact .zero hzero
      · exact .exact hdigits hscale hexponent
    · rintro (hzero | ⟨hdigits, hscale, hexponent⟩)
      · exact .inl hzero
      · exact .inr ⟨hdigits, hscale, hexponent⟩

theorem significand_lt (h : ∀ d ∈ x.whole ++ x.fraction, d < 10)
    (digits : x.significantDigits.length ≤ 15) : x.significand < 2 ^ 53 := by
  have hlt : ofDigits x.significantDigits < 10 ^ x.significantDigits.length :=
    ofDigits_lt fun d hd => h d ((List.dropWhile_sublist _).mem hd)
  rw [significantDigits, ofDigits_dropWhile] at hlt
  calc x.significand < 10 ^ x.significantDigits.length := hlt
    _ ≤ 10 ^ 15 := Nat.pow_le_pow_right (by decide) digits
    _ < 2 ^ 53 := by decide

theorem lower_of_le (f : Float) (h : k ≤ topPower) : lower f k = f / powerOfTen k := by
  rw [lower, if_pos h]

theorem lower_zero (k : ℕ) : lower 0 k = 0 := by
  rw [lower]
  split_ifs with hk hzero
  · obtain ⟨hfinite, hpos⟩ := isFinite_powerOfTen hk
    exact zero_div_of_pos hfinite hpos
  · rfl
  · exact absurd rfl hzero

theorem raise?_zero (k : ℕ) : raise? 0 k = some 0 := by
  rw [raise?]
  split_ifs with hk hzero
  · obtain ⟨hfinite, hpos⟩ := isFinite_powerOfTen hk
    rw [zero_mul_of_pos hfinite hpos]
    rfl
  · rfl
  · exact absurd rfl hzero

theorem stepwiseMagnitude?_zero (h : x.significand = 0) : x.stepwiseMagnitude? = some 0 := by
  have hkept := kept_eq (x := x) (by rw [h]; decide)
  rw [stepwiseMagnitude?, hkept, h]
  dsimp only
  have hfloat : Float.ofNat 0 = 0 := rfl
  rw [hfloat, lower_zero, raise?_zero]
  split_ifs with hlimit hpos
  · exact absurd rfl hpos.1
  · rfl
  · rfl
  · rfl

/-- Few digits and a small power of ten are joined by one operation, in the one reading … -/
theorem magnitude_eq (hne : x.significand ≠ 0) (scale : x.scale.natAbs ≤ 22) :
    x.magnitude = Float.ofScientific x.significand (decide (x.scale < 0)) x.scale.natAbs := by
  have hreach : ¬(reach : ℤ) < x.scale := by
    unfold reach
    omega
  have hreach' : ¬x.scale + (x.whole.length + x.fraction.length) < -(reach : ℤ) := by
    unfold reach
    omega
  rw [magnitude, if_neg hne, if_neg hreach, if_neg hreach']
  split_ifs with hneg
  · rw [decide_eq_true hneg]
  · have hnat : x.scale.toNat = x.scale.natAbs := by omega
    rw [decide_eq_false hneg, hnat]

/-- … and in the other. -/
theorem stepwiseMagnitude?_eq (bits : x.significand < 2 ^ 53) (scale : x.scale.natAbs ≤ 22)
    (exponent : x.exponent.natAbs ≤ exponentLimit) :
    x.stepwiseMagnitude? =
      some (Float.ofScientific x.significand (decide (x.scale < 0)) x.scale.natAbs) := by
  have hscale : -(x.fraction.length : ℤ) + x.exponent = x.scale := by
    unfold Numeral.scale
    ring
  rw [stepwiseMagnitude?, kept_eq (bits.trans (by decide))]
  dsimp only
  rw [if_neg (Nat.not_lt.mpr exponent), hscale, ofNat_eq bits, ofScientific_eq bits scale]
  have htop : x.scale.natAbs ≤ topPower := scale.trans (by decide)
  split_ifs with hneg hdecide hdecide
  · rw [lower_of_le _ htop]
  · exact absurd hneg (by simpa using hdecide)
  · exact absurd (by simpa using hdecide) hneg
  · have hnat : x.scale.toNat = x.scale.natAbs := by omega
    rw [raise?, hnat, if_pos htop]
    exact if_pos (value_mul_powerOfTen bits scale).1

/-- The number that the digits and the exponent stand for, before any rounding. -/
def written (x : Numeral) : ℚ :=
  (if x.negative then -1 else 1) * (x.significand * 10 ^ x.scale)

/-- The magnitude of a short numeral is the same in both readings, finite and rounded once. -/
theorem Short.magnitude_spec (h : x.Short) (digits : ∀ d ∈ x.whole ++ x.fraction, d < 10) :
    x.stepwiseMagnitude? = some x.magnitude ∧ x.magnitude.isFinite = true ∧
      value x.magnitude = rounded (x.significand * 10 ^ x.scale) := by
  by_cases hzero : x.significand = 0
  · have hmagnitude : x.magnitude = 0 := if_pos hzero
    rw [stepwiseMagnitude?_zero hzero, hmagnitude, hzero, Nat.cast_zero, zero_mul, rounded_zero]
    exact ⟨rfl, rfl, rfl⟩
  · cases h with
    | zero h => exact absurd h hzero
    | exact hdigits hscale hexponent =>
      have hbits := significand_lt digits hdigits
      rw [stepwiseMagnitude?_eq hbits hscale hexponent, magnitude_eq hzero hscale]
      exact ⟨rfl, value_ofScientific hbits hscale⟩

/-- A short numeral has one value in both readings, and it is finite. -/
theorem Short.stepwise?_eq (h : x.Short) (digits : ∀ d ∈ x.whole ++ x.fraction, d < 10) :
    x.stepwise? = some x.nearest ∧ x.nearest.isFinite = true := by
  obtain ⟨hstepwise, hfinite, -⟩ := h.magnitude_spec digits
  rw [stepwise?, hstepwise, Option.map_some, nearest]
  split_ifs with hnegative
  · exact ⟨rfl, (value_neg hfinite).1⟩
  · exact ⟨rfl, hfinite⟩

/-- That value is the number written, rounded once. -/
theorem Short.value_nearest (h : x.Short) (digits : ∀ d ∈ x.whole ++ x.fraction, d < 10) :
    value x.nearest = rounded x.written := by
  obtain ⟨-, hfinite, hvalue⟩ := h.magnitude_spec digits
  rw [nearest, written]
  split_ifs with hnegative
  · rw [(value_neg hfinite).2, hvalue, neg_one_mul, rounded_neg]
  · rw [hvalue, one_mul]

/-- A numeral of two digits whose last counts 10⁻²³ has two values: that power of ten is not exact. -/
theorem exists_stepwise?_ne_nearest :
    ∃ u, stepwise? ⟨false, [1], [5], -22⟩ = some u ∧ u.isFinite = true ∧
      (nearest ⟨false, [1], [5], -22⟩).isFinite = true ∧ u ≠ nearest ⟨false, [1], [5], -22⟩ := by
  have hmagnitude : stepwiseMagnitude? ⟨false, [1], [5], -22⟩ =
      some (lower (Float.ofNat 15) 23) := rfl
  refine ⟨Float.ofNat 15 / powerOfTen 23, ?_, by decide +kernel, by decide +kernel,
    by decide +kernel⟩
  rw [stepwise?, hmagnitude, lower_of_le _ (by decide)]
  rfl

end Bimatrix.Numeral
