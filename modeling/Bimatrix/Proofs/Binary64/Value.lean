import Mathlib
import Bimatrix.Proofs.Binary64.Rounding

/-! # The numbers of binary64

A float is a sign, a mantissa and an exponent packed into 64 bits.  The finite ones stand for
rational numbers, which decide every comparison.
-/
namespace Bimatrix.Binary64

open Float.Model Float.Model.UnpackedFloat

/-- The number that a finite datum stands for, and zero for the others. -/
def rational : UnpackedFloat → ℚ
  | .finite s m e _ => s.apply m * 2 ^ e
  | _ => 0

/-- A finite datum as the format stores it, but for the greatest exponent: 53 bits, and fewer only
at the least exponent. -/
inductive Canonical : UnpackedFloat → Prop
  | zero (s : Sign) : Canonical (.zero s)
  | finite {s : Sign} {m : ℕ} {e : ℤ} (hm : 0 < m) (bits : m < 2 ^ 53) (least : -1074 ≤ e)
      (normal : 2 ^ 52 ≤ m ∨ e = -1074) : Canonical (.finite s m e hm)

/-- The greatest finite number. -/
def largest : ℚ := (2 ^ 53 - 1) * 2 ^ (971 : ℤ)

variable {s : Sign} {m : ℕ} {e : ℤ} {u v : UnpackedFloat}

theorem finite_congr {m' : ℕ} {e' : ℤ} {hm : 0 < m} {hm' : 0 < m'} (h : m = m') (he : e = e') :
    UnpackedFloat.finite s m e hm = .finite s m' e' hm' := by
  subst h he
  rfl

theorem abs_apply (s : Sign) (m : ℕ) : |(s.apply m : ℚ)| = m := by
  cases s <;> simp [Sign.apply]

theorem abs_rational_finite (s : Sign) (m : ℕ) (e : ℤ) (hm : 0 < m) :
    |rational (.finite s m e hm)| = m * 2 ^ e := by
  have hpow : (0 : ℚ) < 2 ^ e := by positivity
  rw [rational, abs_mul, abs_apply, abs_of_pos hpow]

theorem Canonical.isFinite (h : Canonical u) : u.isFinite = true := by
  cases h <;> rfl

/-- Rounding leaves the numbers of the format alone. -/
theorem Canonical.rounded_rational (h : Canonical u) : rounded (rational u) = rational u := by
  cases h with
  | zero => exact rounded_zero
  | @finite s m e hm bits least normal =>
    refine rounded_of_representable ?_ least
    have habs : |s.apply m| = (m : ℤ) := by
      exact_mod_cast abs_apply s m
    rw [habs]
    exact_mod_cast bits

theorem abs_rational_le_largest {hm : 0 < m} (bits : m < 2 ^ 53) (top : e ≤ 971) :
    |rational (.finite s m e hm)| ≤ largest := by
  rw [abs_rational_finite, largest]
  have hm' : (m : ℚ) ≤ 2 ^ 53 - 1 := by
    rw [le_sub_iff_add_le]
    exact_mod_cast bits
  have hpow : (2 : ℚ) ^ e ≤ 2 ^ (971 : ℤ) := zpow_le_zpow_right₀ one_le_two top
  exact mul_le_mul hm' hpow (by positivity) (by norm_num)

theorem Canonical.le_top {hm : 0 < m} (h : Canonical (.finite s m e hm))
    (fits : |rational (.finite s m e hm)| ≤ largest) : e ≤ 971 := by
  cases h with
  | finite hm bits least normal =>
    by_contra htop
    rw [not_le] at htop
    have hm' : (2 : ℚ) ^ 52 ≤ m := by exact_mod_cast normal.resolve_right (by omega)
    have hpow : (2 : ℚ) ^ (971 : ℤ) * 2 ≤ 2 ^ e := by
      rw [← zpow_add_one₀ two_ne_zero]
      exact zpow_le_zpow_right₀ one_le_two (Int.add_one_le_of_lt htop)
    have hmul : (2 : ℚ) ^ 52 * (2 ^ (971 : ℤ) * 2) ≤ m * 2 ^ e :=
      mul_le_mul hm' hpow (by positivity) (by positivity)
    have hpos : (0 : ℚ) < 2 ^ (971 : ℤ) := by positivity
    rw [abs_rational_finite, largest] at fits
    generalize (2 : ℚ) ^ (971 : ℤ) = p at fits hmul hpos
    linarith

theorem unpackSign_packComponents (spec : Format) (s : Sign) (k : BitVec spec.exponentBits)
    (v : BitVec spec.mantissaBitsWithoutImplicit) :
    unpackSign (packComponents spec s k v) = s.toBitVec := by
  ext i hi
  obtain rfl : i = 0 := by omega
  simp [unpackSign, packComponents, BitVec.getLsbD_append, BitVec.getElem_append]

theorem ofBitVec_toBitVec (s : Sign) : Sign.ofBitVec s.toBitVec = s := by
  cases s <;> rfl

theorem toNat_one_append (v : BitVec 52) : (1#1 ++ v).toNat = 2 ^ 52 + v.toNat := by
  rw [BitVec.toNat_append, ← Nat.shiftLeft_add_eq_or_of_lt v.isLt]
  simp [Nat.shiftLeft_eq]

theorem unpack_normal (s : Sign) {k : ℕ} (v : BitVec 52) (hpos : 0 < k) (hlt : k < 2047) :
    UnpackedFloat.unpack .binary64 (packComponents .binary64 s (.ofNat 11 k) v) =
      .finite s (2 ^ 52 + v.toNat) (k - 1075) (by positivity) := by
  have hk : (BitVec.ofNat 11 k).toNat = k := by
    rw [BitVec.toNat_ofNat]
    omega
  have htop : BitVec.ofNat 11 k ≠ -1#11 := by
    intro h
    have hne := hk.symm.trans (congrArg BitVec.toNat h)
    simp only [BitVec.reduceNeg, BitVec.reduceToNat] at hne
    omega
  have hzero : BitVec.ofNat 11 k ≠ 0#11 := by
    intro h
    have hne := hk.symm.trans (congrArg BitVec.toNat h)
    simp only [BitVec.reduceToNat] at hne
    omega
  unfold UnpackedFloat.unpack
  simp only [unpackMantissa_packComponents, unpackExponent_packComponents,
    unpackSign_packComponents, ofBitVec_toBitVec, if_neg htop, if_neg hzero]
  exact finite_congr (toNat_one_append v) (by rw [hk]; rfl)

theorem unpack_subnormal (s : Sign) {v : BitVec 52} (h : 0 < v.toNat) :
    UnpackedFloat.unpack .binary64 (packComponents .binary64 s 0#11 v) =
      .finite s v.toNat (-1074) h := by
  have hv : v ≠ 0#52 := by
    rintro rfl
    cases h
  unfold UnpackedFloat.unpack
  simp only [unpackMantissa_packComponents, unpackExponent_packComponents,
    unpackSign_packComponents, ofBitVec_toBitVec, if_true, dif_neg hv]
  rfl

theorem unpack_zero (s : Sign) :
    UnpackedFloat.unpack .binary64 (packComponents .binary64 s 0#11 0#52) = .zero s := by
  cases s <;> rfl

theorem log2_add_one_eq_iff (hm : 0 < m) (bits : m < 2 ^ 53) :
    m.log2 + 1 = 53 ↔ 2 ^ 52 ≤ m := by
  have hlt := (Nat.log2_lt (k := 53) hm.ne').mpr bits
  have hle := Nat.le_log2 (k := 52) hm.ne'
  omega

theorem pack_normal (hm : 0 < m) (normal : 2 ^ 52 ≤ m) (bits : m < 2 ^ 53) (least : -1074 ≤ e)
    (top : e ≤ 971) : UnpackedFloat.pack .binary64 (.finite s m e hm) =
      packComponents .binary64 s (.ofNat 11 (e + 1075).toNat) (.ofNat 52 m) := by
  have hexp : (e + 1023 + 52).toNat = (e + 1075).toNat := by omega
  have htop : ¬2 ^ 11 ≤ (e + 1075).toNat + 1 := by omega
  unfold UnpackedFloat.pack
  change (if 2 ^ 11 ≤ (e + 1023 + 52).toNat + 1 then _ else if m.log2 + 1 = 53 then
    packComponents .binary64 s (.ofNat 11 (e + 1023 + 52).toNat) (.ofNat 52 m) else _) = _
  rw [hexp, if_neg htop, if_pos ((log2_add_one_eq_iff hm bits).mpr normal)]

theorem pack_subnormal (hm : 0 < m) (bits : m < 2 ^ 52) :
    UnpackedFloat.pack .binary64 (.finite s m (-1074) hm) =
      packComponents .binary64 s 0#11 (.ofNat 52 m) := by
  have hlog : m.log2 + 1 ≠ 53 := by
    rw [Ne, log2_add_one_eq_iff hm (by omega)]
    omega
  unfold UnpackedFloat.pack
  exact (if_neg (by decide)).trans (if_neg hlog)

/-- A datum of the format survives packing, unless it is too large. -/
theorem Canonical.unpack_pack (h : Canonical u) (fits : |rational u| ≤ largest) :
    (Float.Model.pack u).unpack = u := by
  change UnpackedFloat.unpack .binary64 (UnpackedFloat.pack .binary64 u) = u
  have htop := h
  cases h with
  | zero s => cases s <;> rfl
  | @finite s m e hm bits least normal =>
    replace htop := htop.le_top fits
    by_cases hnormal : 2 ^ 52 ≤ m
    · rw [pack_normal hm hnormal bits least htop, unpack_normal _ _ (by omega) (by omega)]
      refine finite_congr ?_ (by omega)
      rw [BitVec.toNat_ofNat]
      omega
    · obtain rfl := normal.resolve_left hnormal
      have hv : (BitVec.ofNat 52 m).toNat = m := by
        rw [BitVec.toNat_ofNat]
        omega
      rw [pack_subnormal hm (by omega), unpack_subnormal s (by rwa [hv])]
      exact finite_congr hv rfl

theorem largest_pos : 0 < largest := mul_pos (by norm_num) (by positivity)

theorem toBitVec_ofBitVec (b : BitVec 1) : (Sign.ofBitVec b).toBitVec = b := by
  revert b
  decide

theorem packComponents_unpack (spec : Format) (b : BitVec spec.numBits) :
    packComponents spec (.ofBitVec (unpackSign b)) (unpackExponent b) (unpackMantissa b) = b := by
  have hv := spec.hm
  have hk := spec.he
  ext i hi
  rw [packComponents, toBitVec_ofBitVec, BitVec.getElem_append]
  split_ifs with hmantissa
  · simp [unpackMantissa, BitVec.getLsbD_eq_getElem hi]
  · rw [BitVec.getElem_append]
    split_ifs with hexponent
    · have hindex : spec.mantissaBitsWithoutImplicit + (i - spec.mantissaBitsWithoutImplicit) = i := by
        omega
      simp [unpackExponent, hindex, BitVec.getLsbD_eq_getElem hi]
    · have hindex : spec.mantissaBitsWithoutImplicit + spec.exponentBits +
          (i - spec.mantissaBitsWithoutImplicit - spec.exponentBits) = i := by omega
      simp [unpackSign, hindex, BitVec.getLsbD_eq_getElem hi]

/-- The bits of a finite number are those of a zero, of a subnormal or of a normal number. -/
theorem finite_cases {b : BitVec 64} (h : (UnpackedFloat.unpack .binary64 b).isFinite = true) :
    (∃ s, b = packComponents .binary64 s 0#11 0#52) ∨
      (∃ s v, 0 < v.toNat ∧ b = packComponents .binary64 s 0#11 v) ∨
      ∃ s k v, 0 < k ∧ k < 2047 ∧ b = packComponents .binary64 s (.ofNat 11 k) v := by
  have hb := (packComponents_unpack .binary64 b).symm
  generalize Sign.ofBitVec (@unpackSign .binary64 b) = s at hb
  generalize @unpackMantissa .binary64 b = v at hb
  generalize @unpackExponent .binary64 b = k at hb
  have hk : k.toNat < 2 ^ 11 := k.isLt
  have hofNat : k = .ofNat 11 k.toNat := by simp
  by_cases hzero : k = 0#11
  · rw [hzero] at hb
    by_cases hv : v = 0#52
    · rw [hv] at hb
      exact .inl ⟨s, hb⟩
    · exact .inr (.inl ⟨s, v, Nat.pos_of_ne_zero fun h0 => hv (BitVec.eq_of_toNat_eq h0), hb⟩)
  · by_cases htop : k = -1#11
    · rw [hb, htop, UnpackedFloat.unpack] at h
      simp only [unpackExponent_packComponents, if_true] at h
      split_ifs at h <;> cases h
    · have hpos : k.toNat ≠ 0 := fun h0 => hzero (BitVec.eq_of_toNat_eq h0)
      have hlt : k.toNat ≠ 2047 := fun h1 => htop (BitVec.eq_of_toNat_eq h1)
      rw [hofNat] at hb
      exact .inr (.inr ⟨s, k.toNat, v, by omega, by omega, hb⟩)

/-- What is unpacked is a datum of the format. -/
theorem canonical_unpack {b : BitVec 64}
    (h : (UnpackedFloat.unpack .binary64 b).isFinite = true) :
    Canonical (UnpackedFloat.unpack .binary64 b) ∧
      |rational (UnpackedFloat.unpack .binary64 b)| ≤ largest := by
  obtain ⟨s, rfl⟩ | ⟨s, v, hv, rfl⟩ | ⟨s, k, v, hpos, hlt, rfl⟩ := finite_cases h
  · rw [unpack_zero]
    exact ⟨.zero s, by simpa [rational] using largest_pos.le⟩
  · have hbits : v.toNat < 2 ^ 52 := v.isLt
    rw [unpack_subnormal s hv]
    exact ⟨.finite hv (by omega) (by decide) (.inr rfl),
      abs_rational_le_largest (by omega) (by decide)⟩
  · have hbits : v.toNat < 2 ^ 52 := v.isLt
    rw [unpack_normal s v hpos hlt]
    exact ⟨.finite _ (by omega) (by omega) (.inl (by omega)),
      abs_rational_le_largest (by omega) (by omega)⟩

/-- Packing gives the bits back. -/
theorem pack_unpack {b : BitVec 64} (h : (UnpackedFloat.unpack .binary64 b).isFinite = true) :
    UnpackedFloat.pack .binary64 (UnpackedFloat.unpack .binary64 b) = b := by
  obtain ⟨s, rfl⟩ | ⟨s, v, hv, rfl⟩ | ⟨s, k, v, hpos, hlt, rfl⟩ := finite_cases h
  · rw [unpack_zero]
    rfl
  · have hbits : v.toNat < 2 ^ 52 := v.isLt
    rw [unpack_subnormal s hv, pack_subnormal hv hbits, BitVec.ofNat_toNat, BitVec.setWidth_eq]
  · have hbits : v.toNat < 2 ^ 52 := v.isLt
    have hexponent : ((k : ℤ) - 1075 + 1075).toNat = k := by omega
    have hmantissa : BitVec.ofNat 52 (2 ^ 52 + v.toNat) = v := by
      refine BitVec.eq_of_toNat_eq ?_
      rw [BitVec.toNat_ofNat]
      omega
    rw [unpack_normal s v hpos hlt, pack_normal _ (by omega) (by omega) (by omega) (by omega),
      hexponent, hmantissa]

theorem magnitude_lt {m' : ℕ} {e' : ℤ} (bits : m < 2 ^ 53) (h : e < e') (normal : 2 ^ 52 ≤ m') :
    (m * 2 ^ e : ℚ) < m' * 2 ^ e' := by
  have hpow : (2 : ℚ) ^ e * 2 ≤ 2 ^ e' := by
    rw [← zpow_add_one₀ two_ne_zero]
    exact zpow_le_zpow_right₀ one_le_two h
  have hpos : (0 : ℚ) < 2 ^ e := by positivity
  have hm : (m : ℚ) < 2 ^ 53 := by exact_mod_cast bits
  have hm' : (2 : ℚ) ^ 52 ≤ m' := by exact_mod_cast normal
  calc (m * 2 ^ e : ℚ) < 2 ^ 53 * 2 ^ e := mul_lt_mul_of_pos_right hm hpos
    _ = 2 ^ 52 * (2 ^ e * 2) := by ring
    _ ≤ m' * 2 ^ e' := mul_le_mul hm' hpow (by positivity) (by positivity)

/-- Of two data of the format the one with the greater exponent is the greater. -/
theorem compare_magnitudes {s' : Sign} {m' : ℕ} {e' : ℤ} {hm : 0 < m} {hm' : 0 < m'}
    (h : Canonical (.finite s m e hm)) (h' : Canonical (.finite s' m' e' hm')) :
    (compare e e').then (compare m m') = cmp (m * 2 ^ e : ℚ) (m' * 2 ^ e') := by
  cases h with
  | finite hm bits least normal =>
    cases h' with
    | finite hm' bits' least' normal' =>
      obtain hlt | rfl | hlt := lt_trichotomy e e'
      · rw [compare_lt_iff_lt.mpr hlt]
        exact ((cmp_eq_lt_iff _ _).mpr
          (magnitude_lt bits hlt (normal'.resolve_right (by omega)))).symm
      · have hpos : (0 : ℚ) < 2 ^ e := by positivity
        rw [compare_eq_iff_eq.mpr rfl]
        obtain hlt | rfl | hlt := lt_trichotomy m m'
        · rw [compare_lt_iff_lt.mpr hlt, eq_comm, Ordering.then, cmp_eq_lt_iff]
          exact mul_lt_mul_of_pos_right (by exact_mod_cast hlt) hpos
        · rw [compare_eq_iff_eq.mpr rfl, cmp_self_eq_eq]
          rfl
        · rw [compare_gt_iff_gt.mpr hlt, eq_comm, Ordering.then, cmp_eq_gt_iff]
          exact mul_lt_mul_of_pos_right (by exact_mod_cast hlt) hpos
      · rw [compare_gt_iff_gt.mpr hlt]
        exact ((cmp_eq_gt_iff _ _).mpr
          (magnitude_lt bits' hlt (normal.resolve_right (by omega)))).symm

theorem rational_positive (hm : 0 < m) : rational (.finite .positive m e hm) = m * 2 ^ e := by
  simp [rational, Sign.apply]

theorem rational_negative (hm : 0 < m) : rational (.finite .negative m e hm) = -(m * 2 ^ e) := by
  simp [rational, Sign.apply]

theorem compare_eq (hu : Canonical u) (hv : Canonical v) :
    u.compare v = some (cmp (rational u) (rational v)) := by
  have hpos {m : ℕ} {e : ℤ} (hm : 0 < m) : (0 : ℚ) < m * 2 ^ e := by positivity
  have hu' := hu
  have hv' := hv
  cases hu with
  | zero s =>
    cases hv with
    | zero s' => exact congrArg some (cmp_self_eq_eq _).symm
    | @finite s' m' e' hm' =>
      cases s' with
      | positive =>
        rw [rational_positive]
        exact congrArg some ((cmp_eq_lt_iff _ _).mpr (hpos hm')).symm
      | negative =>
        rw [rational_negative]
        exact congrArg some ((cmp_eq_gt_iff _ _).mpr (neg_neg_of_pos (hpos hm'))).symm
  | @finite s m e hm =>
    cases hv with
    | zero s' =>
      cases s with
      | positive =>
        rw [rational_positive]
        exact congrArg some ((cmp_eq_gt_iff _ _).mpr (hpos hm)).symm
      | negative =>
        rw [rational_negative]
        exact congrArg some ((cmp_eq_lt_iff _ _).mpr (neg_neg_of_pos (hpos hm))).symm
    | @finite s' m' e' hm' =>
      have hcompare := compare_magnitudes hu' hv'
      cases s <;> cases s' <;> simp only [rational_positive, rational_negative]
      · have hneg : cmp (-(m * 2 ^ e : ℚ)) (-(m' * 2 ^ e')) =
            (cmp (m * 2 ^ e : ℚ) (m' * 2 ^ e')).swap := by
          rw [cmp_swap]
          simp only [cmp, cmpUsing, neg_lt_neg_iff]
        rw [hneg, ← hcompare]
        rfl
      · exact congrArg some ((cmp_eq_lt_iff _ _).mpr
          ((neg_neg_of_pos (hpos hm)).trans (hpos hm'))).symm
      · exact congrArg some ((cmp_eq_gt_iff _ _).mpr
          ((neg_neg_of_pos (hpos hm')).trans (hpos hm))).symm
      · rw [← hcompare]
        rfl

/-- Two data of the format that stand for one number, not zero, are the same. -/
theorem Canonical.eq_of_rational_eq (hu : Canonical u) (hv : Canonical v)
    (h : rational u = rational v) (hne : rational u ≠ 0) : u = v := by
  have hpos {m : ℕ} {e : ℤ} (hm : 0 < m) : (0 : ℚ) < m * 2 ^ e := by positivity
  cases u with
  | finite s m e hm =>
    cases v with
    | finite s' m' e' hm' =>
      have hmagnitude : (m * 2 ^ e : ℚ) = m' * 2 ^ e' := by
        rw [← abs_rational_finite s m e hm, h, abs_rational_finite]
      have hcompare := compare_magnitudes hu hv
      rw [hmagnitude, cmp_self_eq_eq, Ordering.then_eq_eq, compare_eq_iff_eq,
        compare_eq_iff_eq] at hcompare
      obtain ⟨rfl, rfl⟩ := hcompare
      have hp := hpos (e := e) hm
      cases s <;> cases s' <;> try rfl
      · rw [rational_negative, rational_positive] at h
        linarith
      · rw [rational_negative, rational_positive] at h
        linarith
    | _ => exact absurd h hne
  | _ => exact absurd rfl hne

/-- The number that a finite float stands for. -/
def value (x : Float) : ℚ := rational x.toModel.unpack

variable {x y : Float}

theorem canonical_of_isFinite (h : x.isFinite = true) : Canonical x.toModel.unpack :=
  (canonical_unpack h).1

theorem abs_value_le (h : x.isFinite = true) : |value x| ≤ largest := (canonical_unpack h).2

theorem rounded_value (h : x.isFinite = true) : rounded (value x) = value x :=
  (canonical_of_isFinite h).rounded_rational

theorem compare_toModel (hx : x.isFinite = true) (hy : y.isFinite = true) :
    x.toModel.unpack.compare y.toModel.unpack = some (cmp (value x) (value y)) :=
  compare_eq (canonical_of_isFinite hx) (canonical_of_isFinite hy)

theorem le_iff_value_le (hx : x.isFinite = true) (hy : y.isFinite = true) :
    x ≤ y ↔ value x ≤ value y := by
  change decide ((x.toModel.unpack.compare y.toModel.unpack).any (·.isLE) = true) = true ↔ _
  rw [decide_eq_true_iff, compare_toModel hx hy, Option.any_some]
  obtain hlt | heq | hlt := lt_trichotomy (value x) (value y)
  · rw [(cmp_eq_lt_iff _ _).mpr hlt]
    exact iff_of_true rfl hlt.le
  · rw [(cmp_eq_eq_iff _ _).mpr heq]
    exact iff_of_true rfl heq.le
  · rw [(cmp_eq_gt_iff _ _).mpr hlt]
    exact iff_of_false (by decide) hlt.not_ge

theorem lt_iff_value_lt (hx : x.isFinite = true) (hy : y.isFinite = true) :
    x < y ↔ value x < value y := by
  change decide ((x.toModel.unpack.compare y.toModel.unpack == some .lt) = true) = true ↔ _
  rw [decide_eq_true_iff, compare_toModel hx hy, beq_iff_eq, Option.some.injEq, cmp_eq_lt_iff]

theorem beq_iff_value_eq (hx : x.isFinite = true) (hy : y.isFinite = true) :
    (x == y) = true ↔ value x = value y := by
  change (x.toModel.unpack.compare y.toModel.unpack == some .eq) = true ↔ _
  rw [compare_toModel hx hy, beq_iff_eq, Option.some.injEq, cmp_eq_eq_iff]

/-- Finite floats that stand for one number, not zero, are the same. -/
theorem eq_of_value_eq (hx : x.isFinite = true) (hy : y.isFinite = true)
    (h : value x = value y) (hne : value x ≠ 0) : x = y := by
  have hunpack := (canonical_of_isFinite hx).eq_of_rational_eq (canonical_of_isFinite hy) h hne
  have hpack (z : Float) (hz : z.isFinite = true) : Float.Model.pack z.toModel.unpack = z.toModel := by
    obtain ⟨⟨bits, valid⟩⟩ := z
    have hbits := pack_unpack (b := bits.toBitVec) hz
    simp only [Float.Model.pack, Float.Model.unpack, hbits, UInt64.ofBitVec_toBitVec]
  have hmodel : x.toModel = y.toModel := by
    rw [← hpack x hx, hunpack, hpack y hy]
  exact congrArg Float.ofModel hmodel

end Bimatrix.Binary64
