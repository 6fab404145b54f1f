import Mathlib.Tactic
import Bimatrix.Proofs.Binary64.Shifting

/-! # Binary64 arithmetic

Each operation on finite floats gives the float that its exact result rounds to, unless that is too
large for the format.
-/
namespace Bimatrix.Binary64

open Float.Model Float.Model.UnpackedFloat

variable {u v : UnpackedFloat} {s : Sign} {m : ℕ} {e : ℤ}

theorem log2_mul_two_pow (hm : 0 < m) (k : ℕ) : (m * 2 ^ k).log2 = m.log2 + k := by
  have hpos : 0 < m * 2 ^ k := by positivity
  rw [Nat.log2_eq_iff hpos.ne']
  have hlow := Nat.log2_self_le hm.ne'
  have hhigh := Nat.lt_log2_self (n := m)
  constructor
  · rw [pow_add]
    exact Nat.mul_le_mul_right _ hlow
  · rw [add_right_comm, pow_add]
    exact Nat.mul_lt_mul_of_pos_right hhigh (by positivity)

theorem mul_pow_mul_zpow (x : ℚ) {e t : ℤ} (h : t ≤ e) :
    x * 2 ^ (e - t).toNat * 2 ^ t = x * 2 ^ e := by
  rw [mul_assoc, ← zpow_natCast, ← zpow_add₀ two_ne_zero, Int.toNat_of_nonneg (by omega),
    sub_add_cancel]

theorem round_spec (s : Sign) (hm : 0 < m) (e : ℤ) :
    Canonical (UnpackedFloat.round .binary64 s m e) ∧
      rational (UnpackedFloat.round .binary64 s m e) = s.apply 1 * rounded (m * 2 ^ e) := by
  obtain ⟨t, ht⟩ : ∃ t, t = Format.binary64.targetExponent (totalExponent m e) := ⟨_, rfl⟩
  obtain ⟨k, hk⟩ : ∃ k, k = (e - t).toNat := ⟨_, rfl⟩
  have hround : UnpackedFloat.round .binary64 s m e =
      roundWithAccuracy .binary64 s (m * 2 ^ k) (e - k) .exact := by
    unfold UnpackedFloat.round decreaseExponent
    dsimp only
    rw [← ht, ← hk, Nat.shiftLeft_eq]
  have htotal : totalExponent (m * 2 ^ k) (e - k) = totalExponent m e := by
    rw [totalExponent, totalExponent, log2_mul_two_pow hm]
    push_cast
    ring
  have hvalue : (m * 2 ^ k * 2 ^ (e - k) : ℚ) = m * 2 ^ e := by
    have hk' : (e - (e - k)).toNat = k := by omega
    have hpow := mul_pow_mul_zpow m (e := e) (t := e - k) (by omega)
    rwa [hk'] at hpow
  have hspec := roundWithAccuracy_spec s (approximates_exact (m * 2 ^ k)) (by positivity)
    (.inl (by positivity)) (e := e - k) (by rw [htotal, ← ht]; omega)
  push_cast at hspec
  rwa [hvalue, ← hround] at hspec

theorem normalize_spec (k : ℤ) (e : ℤ) (s : Sign) :
    Canonical (normalize .binary64 k e s) ∧
      rational (normalize .binary64 k e s) = rounded (k * 2 ^ e) := by
  unfold UnpackedFloat.normalize
  obtain hlt | rfl | hlt := lt_trichotomy k 0
  · rw [compare_lt_iff_lt.mpr hlt]
    have hspec := round_spec .negative (m := (-k).toNat) (by omega) e
    have hcast : (((-k).toNat : ℕ) : ℚ) = -k := by
      exact_mod_cast Int.toNat_of_nonneg (by omega : 0 ≤ -k)
    rw [hcast, neg_mul, rounded_neg] at hspec
    simpa [Sign.apply] using hspec
  · rw [compare_eq_iff_eq.mpr rfl]
    exact ⟨.zero s, by simp [rational, rounded_zero]⟩
  · rw [compare_gt_iff_gt.mpr hlt]
    have hspec := round_spec .positive (m := k.toNat) (by omega) e
    have hcast : ((k.toNat : ℕ) : ℚ) = k := by
      exact_mod_cast Int.toNat_of_nonneg hlt.le
    rw [hcast] at hspec
    simpa [Sign.apply] using hspec

theorem apply_mul_zpow (s : Sign) (m : ℕ) {e t : ℤ} (h : t ≤ e) :
    (s.apply (m <<< (e - t).toNat : ℕ) * 2 ^ t : ℚ) = s.apply m * 2 ^ e := by
  have hpow := mul_pow_mul_zpow m h
  rw [Nat.shiftLeft_eq]
  cases s with
  | positive =>
    simp only [Sign.apply]
    push_cast
    exact hpow
  | negative =>
    simp only [Sign.apply]
    push_cast
    rw [neg_mul, neg_mul, hpow]

theorem apply_neg (s : Sign) : (-s).apply 1 = -s.apply 1 := by
  cases s <;> rfl

theorem rational_zero (s : Sign) : rational (.zero s) = 0 := rfl

theorem add_spec (hu : Canonical u) (hv : Canonical v) :
    Canonical (UnpackedFloat.add .binary64 u v) ∧
      rational (UnpackedFloat.add .binary64 u v) = rounded (rational u + rational v) := by
  have hu' := hu.rounded_rational
  have hv' := hv.rounded_rational
  cases u with
  | zero s =>
    cases v with
    | zero s' =>
      rw [rational_zero, rational_zero, add_zero, rounded_zero]
      cases s <;> cases s' <;> exact ⟨.zero _, rfl⟩
    | finite s' m' e' hm' =>
      rw [rational_zero, zero_add, hv']
      exact ⟨hv, rfl⟩
    | _ => cases hv
  | finite s m e hm =>
    cases v with
    | zero s' =>
      rw [rational_zero, add_zero, hu']
      exact ⟨hu, rfl⟩
    | finite s' m' e' hm' =>
      have hspec := normalize_spec
        (s.apply (m <<< (e - min e e').toNat : ℕ) + s'.apply (m' <<< (e' - min e e').toNat : ℕ))
        (min e e') .positive
      rw [Int.cast_add, add_mul, apply_mul_zpow s m (min_le_left e e'),
        apply_mul_zpow s' m' (min_le_right e e')] at hspec
      exact hspec
    | _ => cases hv
  | _ => cases hu

theorem sub_spec (hu : Canonical u) (hv : Canonical v) :
    Canonical (UnpackedFloat.sub .binary64 u v) ∧
      rational (UnpackedFloat.sub .binary64 u v) = rounded (rational u - rational v) := by
  have hu' := hu.rounded_rational
  have hv' := hv.rounded_rational
  cases u with
  | zero s =>
    cases v with
    | zero s' =>
      rw [rational_zero, rational_zero, sub_zero, rounded_zero]
      cases s <;> cases s' <;> exact ⟨.zero _, rfl⟩
    | finite s' m' e' hm' =>
      rw [rational_zero, zero_sub, rounded_neg, hv']
      cases hv with
      | finite hm' bits least normal =>
        refine ⟨.finite hm' bits least normal, ?_⟩
        change rational (.finite (-s') m' e' hm') = _
        rw [rational_finite, rational_finite, apply_neg, Int.cast_neg, neg_mul]
    | _ => cases hv
  | finite s m e hm =>
    cases v with
    | zero s' =>
      rw [rational_zero, sub_zero, hu']
      exact ⟨hu, rfl⟩
    | finite s' m' e' hm' =>
      have hspec := normalize_spec
        (s.apply (m <<< (e - min e e').toNat : ℕ) - s'.apply (m' <<< (e' - min e e').toNat : ℕ))
        (min e e') .positive
      rw [Int.cast_sub, sub_mul, apply_mul_zpow s m (min_le_left e e'),
        apply_mul_zpow s' m' (min_le_right e e')] at hspec
      exact hspec
    | _ => cases hv
  | _ => cases hu

theorem rounded_apply_mul (s : Sign) (x : ℚ) : rounded (s.apply 1 * x) = s.apply 1 * rounded x := by
  cases s <;> simp [Sign.apply, rounded_neg]

theorem apply_mul (s s' : Sign) : (s * s').apply 1 = s.apply 1 * s'.apply 1 := by
  cases s <;> cases s' <;> rfl

theorem mul_spec (hu : Canonical u) (hv : Canonical v) :
    Canonical (UnpackedFloat.mul .binary64 u v) ∧
      rational (UnpackedFloat.mul .binary64 u v) = rounded (rational u * rational v) := by
  cases hu with
  | zero s =>
    rw [rational_zero, zero_mul, rounded_zero]
    cases hv with
    | zero s' => exact ⟨.zero _, rfl⟩
    | finite hm' bits' least' normal' => exact ⟨.zero _, rfl⟩
  | @finite s m e hm bits least normal =>
    cases hv with
    | zero s' =>
      rw [rational_zero, mul_zero, rounded_zero]
      exact ⟨.zero _, rfl⟩
    | @finite s' m' e' hm' bits' least' normal' =>
      have hpos : 0 < m * m' := Nat.mul_pos hm hm'
      have htarget : e + e' ≤ Format.binary64.targetExponent (totalExponent (m * m') (e + e')) := by
        have hlog : 52 ≤ (m * m').log2 ∨ e + e' ≤ -1074 := by
          obtain hnormal | hleast := normal
          · exact .inl ((Nat.le_log2 hpos.ne').mpr (hnormal.trans (Nat.le_mul_of_pos_right m hm')))
          · obtain hnormal | hleast' := normal'
            · exact .inl ((Nat.le_log2 hpos.ne').mpr
                (hnormal.trans (Nat.le_mul_of_pos_left m' hm)))
            · exact .inr (by omega)
        rw [targetExponent_eq, totalExponent]
        omega
      have hspec := roundWithAccuracy_spec (s * s') (approximates_exact (m * m')) (by positivity)
        (.inl hpos) htarget
      have hvalue : rational (.finite s m e hm) * rational (.finite s' m' e' hm') =
          (s * s').apply 1 * ((m * m' : ℕ) * 2 ^ (e + e')) := by
        rw [rational_finite, rational_finite, apply_mul, zpow_add₀ two_ne_zero]
        push_cast
        ring
      rw [hvalue, rounded_apply_mul]
      exact hspec

theorem apply_div (s s' : Sign) : (s / s').apply 1 = s.apply 1 * s'.apply 1 := by
  cases s <;> cases s' <;> rfl

/-- A quotient is computed with enough bits. -/
theorem divCore_spec {m' : ℕ} (hm : 0 < m) (hm' : 0 < m') (e e' : ℤ) :
    ∃ k t, divCore .binary64 m e m' e' =
        (m * 2 ^ k / m', t, accuracyOfFraction (m * 2 ^ k % m') m') ∧
      ((m * 2 ^ k : ℕ) / m' * 2 ^ t : ℚ) = m * 2 ^ e / (m' * 2 ^ e') ∧
      (0 < m * 2 ^ k / m' ∨ t ≤ -1074) ∧
      t ≤ Format.binary64.targetExponent (totalExponent (m * 2 ^ k / m') t) := by
  obtain ⟨t, ht⟩ : ∃ t, t = min (e - e') (Format.binary64.targetExponent
      (totalExponent m e - totalExponent m' e')) := ⟨_, rfl⟩
  obtain ⟨k, hk⟩ : ∃ k, k = (e - e' - t).toNat := ⟨_, rfl⟩
  refine ⟨k, t, ?_, ?_, ?_⟩
  · unfold divCore
    dsimp only
    rw [← ht, ← hk, Nat.shiftLeft_eq]
  · have hpow := mul_pow_mul_zpow m (e := e - e') (t := t) (by omega)
    rw [← hk, zpow_sub₀ two_ne_zero] at hpow
    push_cast
    rw [div_mul_eq_mul_div, hpow]
    field_simp
  · obtain hleast | hlt := le_or_gt t (-1074)
    · refine ⟨.inr hleast, ?_⟩
      rw [targetExponent_eq]
      omega
    · -- The dividend is shifted until the quotient has 53 bits.
      have hbits : 2 ^ 52 ≤ m * 2 ^ k / m' := by
        rw [targetExponent_eq, totalExponent, totalExponent] at ht
        have hshift : m'.log2 + 53 ≤ m.log2 + k := by omega
        rw [Nat.le_div_iff_mul_le hm']
        calc 2 ^ 52 * m' ≤ 2 ^ 52 * 2 ^ (m'.log2 + 1) :=
              Nat.mul_le_mul_left _ Nat.lt_log2_self.le
          _ = 2 ^ (m'.log2 + 53) := by ring
          _ ≤ 2 ^ (m.log2 + k) := Nat.pow_le_pow_right two_pos hshift
          _ = 2 ^ m.log2 * 2 ^ k := pow_add 2 m.log2 k
          _ ≤ m * 2 ^ k := Nat.mul_le_mul_right _ (Nat.log2_self_le hm.ne')
      have hpos : 0 < m * 2 ^ k / m' := lt_of_lt_of_le (by positivity) hbits
      have hlog := (Nat.le_log2 hpos.ne').mpr hbits
      refine ⟨.inl hpos, ?_⟩
      rw [targetExponent_eq, totalExponent]
      omega

theorem div_spec (hu : Canonical u) (hv : Canonical v) (hne : rational v ≠ 0) :
    Canonical (UnpackedFloat.div .binary64 u v) ∧
      rational (UnpackedFloat.div .binary64 u v) = rounded (rational u / rational v) := by
  cases hv with
  | zero s' => exact absurd rfl hne
  | @finite s' m' e' hm' bits' least' normal' =>
    cases hu with
    | zero s =>
      rw [rational_zero, zero_div, rounded_zero]
      exact ⟨.zero _, rfl⟩
    | @finite s m e hm bits least normal =>
      obtain ⟨k, t, hcore, hquot, hpos, htarget⟩ := divCore_spec hm hm' e e'
      have hspec := roundWithAccuracy_spec (s / s') (approximates_quotient (m * 2 ^ k) hm')
        (by positivity) hpos htarget
      rw [hquot] at hspec
      have hvalue : rational (.finite s m e hm) / rational (.finite s' m' e' hm') =
          (s / s').apply 1 * (m * 2 ^ e / (m' * 2 ^ e')) := by
        rw [rational_finite, rational_finite, apply_div]
        cases s' <;> simp [Sign.apply] <;> ring
      have hdiv : UnpackedFloat.div .binary64 (.finite s m e hm) (.finite s' m' e' hm') =
          roundWithAccuracy .binary64 (s / s') (m * 2 ^ k / m') t
            (accuracyOfFraction (m * 2 ^ k % m') m') := by
        simp only [UnpackedFloat.div, hcore]
      rw [hdiv, hvalue, rounded_apply_mul]
      exact hspec

variable {x y : Float}

/-- A datum of the format that is not too large is the value of the float it is packed into. -/
theorem value_pack (hu : Canonical u) (fits : |rational u| ≤ largest) :
    (Float.ofModel (.pack u)).isFinite = true ∧ value (.ofModel (.pack u)) = rational u := by
  have hunpack := hu.unpack_pack fits
  constructor
  · change (Float.Model.pack u).unpack.isFinite = true
    rw [hunpack]
    exact hu.isFinite
  · change rational (Float.Model.pack u).unpack = _
    rw [hunpack]

theorem neg_spec (hu : Canonical u) : Canonical u.neg ∧ rational u.neg = -rational u := by
  cases hu with
  | zero s => exact ⟨.zero _, by simp [UnpackedFloat.neg, rational]⟩
  | @finite s m e hm bits least normal =>
    refine ⟨.finite hm bits least normal, ?_⟩
    change rational (.finite (-s) m e hm) = _
    cases s <;> simp [rational, Sign.apply]

theorem value_neg (hx : x.isFinite = true) : (-x).isFinite = true ∧ value (-x) = -value x := by
  obtain ⟨hcanonical, hrational⟩ := neg_spec (canonical_of_isFinite hx)
  have hpack := value_pack hcanonical (by rw [hrational, abs_neg]; exact abs_value_le hx)
  rwa [hrational] at hpack

/-- A natural number with at most 53 bits is exact. -/
theorem value_toFloat {m : ℕ} (h : m < 2 ^ 53) :
    m.toUInt64.toFloat.isFinite = true ∧ value m.toUInt64.toFloat = m := by
  have htoNat : m.toUInt64.toNat = m := UInt64.toNat_ofNat_of_lt' (h.trans (by decide))
  obtain ⟨hcanonical, hrational⟩ := normalize_spec m 0 .positive
  have hexact : rounded ((m : ℤ) * 2 ^ (0 : ℤ)) = m := by
    rw [rounded_of_representable (by rw [Nat.abs_cast]; exact_mod_cast h) (by decide), zpow_zero,
      mul_one, Int.cast_natCast]
  rw [hexact] at hrational
  have hfits : (m : ℚ) ≤ largest := by
    have hpow : (1 : ℚ) ≤ 2 ^ (971 : ℤ) := one_le_zpow₀ one_le_two (by decide)
    have hbits : (m : ℚ) ≤ 2 ^ 53 - 1 := by
      have : m + 1 ≤ 2 ^ 53 := h
      have : (m : ℚ) + 1 ≤ 2 ^ 53 := by exact_mod_cast this
      linarith
    calc (m : ℚ) ≤ 2 ^ 53 - 1 := hbits
      _ ≤ largest := le_mul_of_one_le_right (by norm_num) hpow
  have hpack := value_pack hcanonical (by rwa [hrational, Nat.abs_cast])
  have hmodel : m.toUInt64.toFloat = .ofModel (.pack (normalize .binary64 m 0 .positive)) := by
    change Float.ofModel (.pack (normalize .binary64 (m.toUInt64.toNat : ℤ) 0 .positive)) = _
    rw [htoNat]
  rwa [hrational, ← hmodel] at hpack

theorem value_add (hx : x.isFinite = true) (hy : y.isFinite = true)
    (fits : |rounded (value x + value y)| ≤ largest) :
    (x + y).isFinite = true ∧ value (x + y) = rounded (value x + value y) := by
  obtain ⟨hcanonical, hrational⟩ := add_spec (canonical_of_isFinite hx) (canonical_of_isFinite hy)
  have hpack := value_pack hcanonical (hrational ▸ fits)
  rwa [hrational] at hpack

theorem value_sub (hx : x.isFinite = true) (hy : y.isFinite = true)
    (fits : |rounded (value x - value y)| ≤ largest) :
    (x - y).isFinite = true ∧ value (x - y) = rounded (value x - value y) := by
  obtain ⟨hcanonical, hrational⟩ := sub_spec (canonical_of_isFinite hx) (canonical_of_isFinite hy)
  have hpack := value_pack hcanonical (hrational ▸ fits)
  rwa [hrational] at hpack

theorem value_mul (hx : x.isFinite = true) (hy : y.isFinite = true)
    (fits : |rounded (value x * value y)| ≤ largest) :
    (x * y).isFinite = true ∧ value (x * y) = rounded (value x * value y) := by
  obtain ⟨hcanonical, hrational⟩ := mul_spec (canonical_of_isFinite hx) (canonical_of_isFinite hy)
  have hpack := value_pack hcanonical (hrational ▸ fits)
  rwa [hrational] at hpack

theorem value_div (hx : x.isFinite = true) (hy : y.isFinite = true) (hne : value y ≠ 0)
    (fits : |rounded (value x / value y)| ≤ largest) :
    (x / y).isFinite = true ∧ value (x / y) = rounded (value x / value y) := by
  obtain ⟨hcanonical, hrational⟩ :=
    div_spec (canonical_of_isFinite hx) (canonical_of_isFinite hy) hne
  have hpack := value_pack hcanonical (hrational ▸ fits)
  rwa [hrational] at hpack

theorem exists_unpack_eq_positive (hx : x.isFinite = true) (hpos : 0 < value x) :
    ∃ m e hm, x.toModel.unpack = .finite .positive m e hm := by
  have hcanonical := canonical_of_isFinite hx
  rw [value] at hpos
  cases hunpack : x.toModel.unpack with
  | finite s m e hm =>
    cases s with
    | positive => exact ⟨m, e, hm, rfl⟩
    | negative =>
      rw [hunpack, rational_negative] at hpos
      have : (0 : ℚ) ≤ m * 2 ^ e := by positivity
      linarith
  | zero s =>
    rw [hunpack, rational_zero] at hpos
    exact absurd hpos (lt_irrefl 0)
  | _ =>
    rw [hunpack] at hcanonical
    cases hcanonical

theorem zero_mul_of_pos (hx : x.isFinite = true) (hpos : 0 < value x) : 0 * x = 0 := by
  obtain ⟨m, e, hm, hunpack⟩ := exists_unpack_eq_positive hx hpos
  change Float.ofModel (.pack (UnpackedFloat.mul .binary64 (.zero .positive) x.toModel.unpack)) = _
  rw [hunpack]
  rfl

theorem zero_div_of_pos (hx : x.isFinite = true) (hpos : 0 < value x) : 0 / x = 0 := by
  obtain ⟨m, e, hm, hunpack⟩ := exists_unpack_eq_positive hx hpos
  change Float.ofModel (.pack (UnpackedFloat.div .binary64 (.zero .positive) x.toModel.unpack)) = _
  rw [hunpack]
  rfl

end Bimatrix.Binary64
