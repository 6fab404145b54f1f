import Mathlib.Tactic
import Bimatrix.Proofs.Binary64.Value

/-! # Rounding of data

An operation computes its exact result down to some bit and keeps two more bits for the rest.  Shifting
the result into the format and rounding it by these bits gives the rounded number.
-/
namespace Bimatrix.Binary64

open Float.Model Float.Model.UnpackedFloat

/-- An integer part with two bits that place the fraction between zero, a half and one. -/
structure Approximates (em : ExtendedMantissa) (q : ℚ) : Prop where
  floor_eq : ⌊q⌋ = em.mantissa
  roundBit_iff : em.roundBit = true ↔ 1 / 2 ≤ Int.fract q
  stickyBit_iff : em.stickyBit = true ↔ Int.fract q ≠ 0 ∧ Int.fract q ≠ 1 / 2

variable {em : ExtendedMantissa} {q : ℚ}

theorem floor_fract_half {k : ℕ} (h : ⌊q⌋ = k) :
    ⌊q / 2⌋ = (k / 2 : ℕ) ∧ Int.fract (q / 2) = ((k % 2 : ℕ) + Int.fract q) / 2 := by
  have hq := Int.floor_add_fract q
  have hnonneg := Int.fract_nonneg q
  have hlt := Int.fract_lt_one q
  have hk : (k : ℚ) = 2 * (k / 2 : ℕ) + (k % 2 : ℕ) := by
    exact_mod_cast (Nat.div_add_mod k 2).symm
  have hbit : ((k % 2 : ℕ) : ℚ) ≤ 1 := by
    exact_mod_cast Nat.le_of_lt_succ (Nat.mod_lt k two_pos)
  have hbit' : (0 : ℚ) ≤ (k % 2 : ℕ) := Nat.cast_nonneg _
  have hcast : (⌊q⌋ : ℚ) = k := by rw [h, Int.cast_natCast]
  have hfloor : ⌊q / 2⌋ = (k / 2 : ℕ) := by
    rw [Int.floor_eq_iff, Int.cast_natCast]
    constructor <;> linarith
  have hhalf := Int.floor_add_fract (q / 2)
  rw [hfloor, Int.cast_natCast] at hhalf
  exact ⟨hfloor, by linarith⟩

theorem Approximates.shiftRightOne (h : Approximates em q) :
    Approximates em.shiftRightOne (q / 2) := by
  have hnonneg := Int.fract_nonneg q
  have hlt := Int.fract_lt_one q
  obtain ⟨hfloor, hfract⟩ := floor_fract_half h.floor_eq
  have hbits : (em.roundBit || em.stickyBit) = true ↔ Int.fract q ≠ 0 := by
    rw [Bool.or_eq_true, h.roundBit_iff, h.stickyBit_iff]
    constructor
    · rintro (hround | ⟨hne, -⟩)
      · linarith
      · exact hne
    · intro hne
      by_cases hhalf : Int.fract q = 1 / 2
      · exact .inl hhalf.ge
      · exact .inr ⟨hne, hhalf⟩
  refine ⟨hfloor, ?_, ?_⟩
  · rw [hfract]
    change (em.mantissa % 2 != 0) = true ↔ _
    obtain hm | hm := Nat.mod_two_eq_zero_or_one em.mantissa <;> rw [hm] <;> simp <;> linarith
  · rw [hfract]
    change (em.roundBit || em.stickyBit) = true ↔ _
    rw [hbits]
    obtain hm | hm := Nat.mod_two_eq_zero_or_one em.mantissa <;> rw [hm] <;> push_cast
    · constructor
      · intro hne
        exact ⟨fun h0 => hne (by linarith), by linarith⟩
      · rintro ⟨hne, -⟩ h0
        exact hne (by linarith)
    · constructor
      · intro hne
        exact ⟨by linarith, fun h1 => hne (by linarith)⟩
      · rintro ⟨-, hne⟩ h0
        exact hne (by linarith)

theorem Approximates.shiftRight (h : Approximates em q) (n : ℕ) :
    Approximates (em >>> n) (q / 2 ^ n) := by
  change Approximates (n.repeat ExtendedMantissa.shiftRightOne em) (q / 2 ^ n)
  induction n with
  | zero =>
    rw [pow_zero, div_one]
    exact h
  | succ n ih =>
    rw [pow_succ, ← div_div]
    exact ih.shiftRightOne

theorem Approximates.roundedMantissa_eq (h : Approximates em q) :
    (em.roundedMantissa : ℤ) = nearestEven q := by
  obtain ⟨m, roundBit, stickyBit⟩ := em
  obtain ⟨hfloor, hround, hsticky⟩ := h
  simp only at hfloor hround hsticky
  unfold nearestEven
  rw [hfloor]
  cases roundBit with
  | false =>
    rw [if_pos (by simpa using hround)]
    cases stickyBit <;> rfl
  | true =>
    have hhalf : 1 / 2 ≤ Int.fract q := hround.mp rfl
    rw [if_neg hhalf.not_gt]
    cases stickyBit with
    | false =>
      have heq : Int.fract q = 1 / 2 := by
        by_contra hne
        exact absurd (hsticky.mpr ⟨by linarith, hne⟩) (by decide)
      rw [if_neg heq.le.not_gt]
      rfl
    | true =>
      rw [if_pos (lt_of_le_of_ne hhalf (hsticky.mp rfl).2.symm)]
      rfl

theorem approximates_exact (m : ℕ) : Approximates (.ofMantissaAndAccuracy m .exact) m := by
  refine ⟨Int.floor_natCast m, ?_, ?_⟩ <;> simp [ExtendedMantissa.ofMantissaAndAccuracy]

theorem approximates_inexact {m : ℕ} {o : Ordering} (hfloor : ⌊q⌋ = m) (hne : Int.fract q ≠ 0)
    (ho : cmp (Int.fract q) (1 / 2) = o) :
    Approximates (.ofMantissaAndAccuracy m (.inexact o)) q := by
  cases o with
  | lt =>
    rw [cmp_eq_lt_iff] at ho
    exact ⟨hfloor, iff_of_false Bool.false_ne_true ho.not_ge, iff_of_true rfl ⟨hne, ho.ne⟩⟩
  | eq =>
    rw [cmp_eq_eq_iff] at ho
    exact ⟨hfloor, iff_of_true rfl ho.ge, iff_of_false Bool.false_ne_true fun h => h.2 ho⟩
  | gt =>
    rw [cmp_eq_gt_iff] at ho
    exact ⟨hfloor, iff_of_true rfl ho.le, iff_of_true rfl ⟨hne, ho.ne'⟩⟩

/-- The remainder of a division places the quotient. -/
theorem approximates_quotient (a : ℕ) {b : ℕ} (hb : 0 < b) :
    Approximates (.ofMantissaAndAccuracy (a / b) (accuracyOfFraction (a % b) b)) (a / b) := by
  have hb' : (0 : ℚ) < b := by exact_mod_cast hb
  have hfloor : ⌊(a / b : ℚ)⌋ = (a / b : ℕ) := Rat.floor_natCast_div_natCast a b
  have hfract : Int.fract (a / b : ℚ) = (a % b : ℕ) / b := Int.fract_div_natCast_eq_div_natCast_mod
  unfold accuracyOfFraction
  split_ifs with hzero
  · have heq : (a / b : ℚ) = (a / b : ℕ) := by
      rw [← Int.floor_add_fract (a / b : ℚ), hfloor, hfract, hzero, Nat.cast_zero, zero_div, add_zero,
        Int.cast_natCast]
    rw [heq]
    exact approximates_exact _
  · refine approximates_inexact hfloor ?_ ?_
    · rw [hfract]
      have hpos : (0 : ℚ) < (a % b : ℕ) := by exact_mod_cast Nat.pos_of_ne_zero hzero
      exact (div_pos hpos hb').ne'
    · rw [hfract]
      obtain hlt | heq | hlt := lt_trichotomy (2 * (a % b)) b
      · have hcast : (2 * (a % b : ℕ) : ℚ) < b := by exact_mod_cast hlt
        rw [compare_lt_iff_lt.mpr hlt, cmp_eq_lt_iff, div_lt_iff₀ hb']
        linarith
      · have hcast : (2 * (a % b : ℕ) : ℚ) = b := by exact_mod_cast heq
        rw [compare_eq_iff_eq.mpr heq, cmp_eq_eq_iff, div_eq_iff hb'.ne']
        linarith
      · have hcast : (b : ℚ) < 2 * (a % b : ℕ) := by exact_mod_cast hlt
        rw [compare_gt_iff_gt.mpr hlt, cmp_eq_gt_iff, lt_div_iff₀ hb']
        linarith

/-- The exponent that a datum with these bits before the point should have. -/
theorem targetExponent_eq (t : ℤ) :
    Format.binary64.targetExponent t = max (t - 53) (-1074) := rfl

theorem shiftToTargetExponent_eq {m : ℕ} {e : ℤ} {a : Accuracy}
    (he : e ≤ Format.binary64.targetExponent (totalExponent m e)) :
    shiftToTargetExponent .binary64 m e a =
      (ExtendedMantissa.ofMantissaAndAccuracy m a >>>
        (Format.binary64.targetExponent (totalExponent m e) - e).toNat,
        Format.binary64.targetExponent (totalExponent m e)) := by
  unfold shiftToTargetExponent shiftToExponent
  refine Prod.ext rfl ?_
  dsimp only
  omega

theorem shiftToTargetExponent_of_le {m : ℕ} {e : ℤ} {a : Accuracy}
    (he : Format.binary64.targetExponent (totalExponent m e) ≤ e) :
    shiftToTargetExponent .binary64 m e a =
      (ExtendedMantissa.ofMantissaAndAccuracy m a, e) := by
  have hzero : (Format.binary64.targetExponent (totalExponent m e) - e).toNat = 0 := by omega
  unfold shiftToTargetExponent shiftToExponent
  dsimp only
  rw [hzero]
  exact Prod.ext rfl (by simp)

/-- A mantissa that has just been rounded is settled in the format without losing its value. -/
theorem settle {r : ℕ} {t : ℤ} (bits : r ≤ 2 ^ 53) (least : -1074 ≤ t)
    (normal : 2 ^ 52 ≤ r ∨ t = -1074) :
    ∃ m e, (shiftToTargetExponent .binary64 r t .exact).1.mantissa = m ∧
      (shiftToTargetExponent .binary64 r t .exact).2 = e ∧ (m * 2 ^ e : ℚ) = r * 2 ^ t ∧
      m < 2 ^ 53 ∧ -1074 ≤ e ∧ (2 ^ 52 ≤ m ∨ e = -1074) := by
  obtain hlt | rfl := bits.lt_or_eq
  · have hlog : r.log2 ≤ 52 := by
      obtain rfl | hr := Nat.eq_zero_or_pos r
      · decide
      · exact Nat.le_of_lt_succ ((Nat.log2_lt hr.ne').mpr hlt)
    have he : Format.binary64.targetExponent (totalExponent r t) ≤ t := by
      rw [targetExponent_eq, totalExponent]
      omega
    rw [shiftToTargetExponent_of_le he]
    exact ⟨r, t, rfl, rfl, rfl, hlt, least, normal⟩
  · have htarget : Format.binary64.targetExponent (totalExponent (2 ^ 53) t) = t + 1 := by
      have hlog : (2 ^ 53).log2 = 53 := by decide
      rw [targetExponent_eq, totalExponent, hlog]
      omega
    rw [shiftToTargetExponent_eq (by omega), htarget]
    have hone : (t + 1 - t).toNat = 1 := by omega
    rw [hone]
    refine ⟨2 ^ 52, t + 1, (by decide : 2 ^ 53 / 2 = 2 ^ 52), rfl, ?_, by decide, by omega, .inl le_rfl⟩
    rw [zpow_add_one₀ two_ne_zero]
    push_cast
    ring

variable {s : Sign} {m : ℕ} {e : ℤ} {a : Accuracy}

theorem mantissa_ofMantissaAndAccuracy (m : ℕ) (a : Accuracy) :
    (ExtendedMantissa.ofMantissaAndAccuracy m a).mantissa = m := by
  cases a with
  | exact => rfl
  | inexact o => cases o <;> rfl

theorem targetExponent_zero (he : e ≤ -1074) :
    Format.binary64.targetExponent (totalExponent 0 e) = -1074 := by
  have hlog : Nat.log2 0 = 0 := rfl
  rw [targetExponent_eq, totalExponent, hlog]
  omega

/-- The exponent that the bits of a datum ask for is the unit of the number it approximates. -/
theorem unit_eq_targetExponent (hq : Approximates (.ofMantissaAndAccuracy m a) q) (hpos : 0 < q)
    (hm : 0 < m ∨ e ≤ -1074) :
    unit (q * 2 ^ e) = Format.binary64.targetExponent (totalExponent m e) := by
  have hfloor := hq.floor_eq
  rw [mantissa_ofMantissaAndAccuracy, Int.floor_eq_iff, Int.cast_natCast] at hfloor
  obtain ⟨hle, hlt⟩ := hfloor
  have hpow : (0 : ℚ) < 2 ^ e := by positivity
  have hx : 0 < q * 2 ^ e := mul_pos hpos hpow
  obtain rfl | hm' := Nat.eq_zero_or_pos m
  · have he := hm.resolve_left (lt_irrefl 0)
    have hunit : unit (q * 2 ^ e) ≤ -1074 := by
      rw [unit_le_iff hx.ne', abs_of_pos hx]
      refine ⟨?_, le_rfl⟩
      calc q * 2 ^ e < 1 * 2 ^ e := mul_lt_mul_of_pos_right (by simpa using hlt) hpow
        _ = 2 ^ e := one_mul _
        _ ≤ 2 ^ (-1074 + 53 : ℤ) := zpow_le_zpow_right₀ one_le_two (by omega)
    rw [targetExponent_zero he]
    exact le_antisymm hunit (neg_1074_le_unit _)
  · have hlow : (2 : ℚ) ^ (m.log2 + e) ≤ q * 2 ^ e := by
      have hpow' : (2 : ℚ) ^ m.log2 ≤ m := by exact_mod_cast Nat.log2_self_le hm'.ne'
      rw [zpow_add₀ two_ne_zero, zpow_natCast]
      exact mul_le_mul_of_nonneg_right (hpow'.trans hle) hpow.le
    have hhigh : q * 2 ^ e < (2 : ℚ) ^ (m.log2 + e + 1) := by
      have hpow' : (m + 1 : ℚ) ≤ 2 ^ (m.log2 + 1) := by exact_mod_cast Nat.lt_log2_self
      have hexponent : (m.log2 + e + 1 : ℤ) = (m.log2 + 1 : ℕ) + e := by push_cast; ring
      rw [hexponent, zpow_add₀ two_ne_zero, zpow_natCast]
      exact mul_lt_mul_of_pos_right (hlt.trans_le hpow') hpow
    have hlog : Int.log 2 (q * 2 ^ e) = m.log2 + e := by
      have hle' := (Int.zpow_le_iff_le_log (b := 2) one_lt_two hx).mp (by exact_mod_cast hlow)
      have hlt' := (Int.lt_zpow_iff_log_lt (b := 2) one_lt_two hx).mp (by exact_mod_cast hhigh)
      omega
    rw [unit, abs_of_pos hx, hlog, targetExponent_eq, totalExponent]
    omega

theorem rational_finite (s : Sign) (m : ℕ) (e : ℤ) (hm : 0 < m) :
    rational (.finite s m e hm) = s.apply 1 * (m * 2 ^ e) := by
  cases s <;> simp [rational, Sign.apply]

/-- A number scaled by its unit is rounded to at most 53 bits, and to fewer only at the least unit. -/
theorem nearestEven_bounds {x : ℚ} (hx : 0 < x) :
    nearestEven (x / 2 ^ unit x) ≤ 2 ^ 53 ∧
      (2 ^ 52 ≤ nearestEven (x / 2 ^ unit x) ∨ unit x = -1074) := by
  have hpow : (0 : ℚ) < 2 ^ unit x := by positivity
  constructor
  · have hlt := (abs_lt_of_unit x).le
    rw [abs_of_pos hx, add_comm, zpow_add₀ two_ne_zero, ← div_le_iff₀ hpow] at hlt
    have hmono := nearestEven_mono (q := ((2 ^ 53 : ℤ) : ℚ)) (by exact_mod_cast hlt)
    rwa [nearestEven_intCast] at hmono
  · obtain heq | hlt := (neg_1074_le_unit x).eq_or_lt
    · exact .inr heq.symm
    · have hle := le_abs_of_unit hx.ne' hlt
      rw [abs_of_pos hx, add_comm, zpow_add₀ two_ne_zero, ← le_div_iff₀ hpow] at hle
      have hmono := nearestEven_mono (p := ((2 ^ 52 : ℤ) : ℚ)) (by exact_mod_cast hle)
      rw [nearestEven_intCast] at hmono
      exact .inl hmono

/-- A datum with enough bits, and what is known of the bits behind them, is rounded to the number that
the format has for what it approximates. -/
theorem roundWithAccuracy_spec (s : Sign) (hq : Approximates (.ofMantissaAndAccuracy m a) q)
    (h0 : 0 ≤ q) (hm : 0 < m ∨ e ≤ -1074)
    (he : e ≤ Format.binary64.targetExponent (totalExponent m e)) :
    Canonical (roundWithAccuracy .binary64 s m e a) ∧
      rational (roundWithAccuracy .binary64 s m e a) = s.apply 1 * rounded (q * 2 ^ e) := by
  obtain ⟨t, ht⟩ : ∃ t, t = Format.binary64.targetExponent (totalExponent m e) := ⟨_, rfl⟩
  have hleast : -1074 ≤ t := by
    rw [ht]
    exact le_max_right _ _
  have hshift := shiftToTargetExponent_eq (a := a) he
  rw [← ht] at he hshift
  -- Shifting brings the datum to the unit of the number.
  have hscale : q / 2 ^ (t - e).toNat = q * 2 ^ e / 2 ^ t := by
    have hpow : (2 : ℚ) ^ t = 2 ^ (t - e).toNat * 2 ^ e := by
      rw [← zpow_natCast, ← zpow_add₀ two_ne_zero, Int.toNat_of_nonneg (by omega), sub_add_cancel]
    rw [hpow]
    field_simp
  have hround := (hq.shiftRight (t - e).toNat).roundedMantissa_eq
  rw [hscale] at hround
  unfold roundWithAccuracy
  rw [hshift]
  dsimp only
  generalize (ExtendedMantissa.ofMantissaAndAccuracy m a >>> (t - e).toNat).roundedMantissa = r
    at hround ⊢
  have hr : (r * 2 ^ t : ℚ) = rounded (q * 2 ^ e) ∧ r ≤ 2 ^ 53 ∧ (2 ^ 52 ≤ r ∨ t = -1074) := by
    obtain rfl | hpos := h0.eq_or_lt
    · have hmantissa := hq.floor_eq
      rw [mantissa_ofMantissaAndAccuracy, Int.floor_zero] at hmantissa
      have hm0 : m = 0 := by omega
      have hr0 : r = 0 := by
        rw [zero_mul, zero_div] at hround
        exact_mod_cast hround.trans (nearestEven_intCast 0)
      subst m r
      refine ⟨by simp [rounded_zero], by decide, .inr ?_⟩
      rw [ht, targetExponent_zero (hm.resolve_left (lt_irrefl 0))]
    · have hunit := unit_eq_targetExponent hq hpos hm
      rw [← ht] at hunit
      obtain ⟨hbits, hnormal⟩ := nearestEven_bounds (x := q * 2 ^ e) (by positivity)
      rw [hunit, ← hround] at hbits hnormal
      refine ⟨?_, by exact_mod_cast hbits, hnormal.imp_left fun h => by exact_mod_cast h⟩
      rw [rounded, hunit, ← hround, Int.cast_natCast]
  obtain ⟨hrounded, hbits, hnormal⟩ := hr
  obtain ⟨m', e', hm', he', hvalue, bits, least, normal⟩ := settle hbits hleast hnormal
  rw [← hrounded, ← hvalue]
  split_ifs with hzero
  · refine ⟨.zero s, ?_⟩
    rw [← hm', hzero]
    simp [rational]
  · simp only [hm', he'] at hzero ⊢
    exact ⟨.finite _ bits least normal, rational_finite s m' e' _⟩

end Bimatrix.Binary64
