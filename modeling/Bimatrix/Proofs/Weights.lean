import Mathlib.Tactic
import Bimatrix.Proofs.Equilibrium

/-! # Mixes from weights

In exact arithmetic the values of a range of labels become a distribution.  Values that are not all
zero are divided by their sum, which keeps their support and their ratios; a range without support
is played uniformly.  A distribution is its own mix.
-/
namespace Bimatrix

variable {n start stop : ℕ} {w mix : Vector ℚ n}

theorem sum_get_eq_zero_iff (hw : ∀ i, 0 ≤ w.get i) :
    ∑ i, w.get i = 0 ↔ ∀ i, w.get i = 0 := by
  simp [Finset.sum_eq_zero_iff_of_nonneg fun i _ => hw i]

theorem distribution_get_of_sum_eq_zero (h : ∑ i, w.get i = 0) (i : Fin n) :
    (distribution w).get i = 1 / n := by
  have htotal : (Summation.total w == 0) = true := by
    rw [Summation.total_eq_sum]
    exact Scalar.beq_iff.mpr h
  have hreplicate : distribution w = Vector.replicate n (1 / Scalar.ofNat n) := if_pos htotal
  rw [hreplicate, get_eq_getElem, Vector.getElem_replicate]
  exact congrArg (fun k : ℚ => 1 / k) (Rat.mkRat_one n)

/-- A common factor of the weights has no say in the mix. -/
theorem distribution_map_mul {c : ℚ} (hc : c ≠ 0) :
    distribution (w.map fun v => c * v) = distribution w := by
  have hsum : ∑ i, (w.map fun v => c * v).get i = c * ∑ i, w.get i := by
    simp [Finset.mul_sum]
  apply ext_get
  intro i
  by_cases h : ∑ i, w.get i = 0
  · rw [distribution_get_of_sum_eq_zero h, distribution_get_of_sum_eq_zero]
    rw [hsum, h, mul_zero]
  · rw [distribution_get h, distribution_get, hsum, get_map, mul_div_mul_left _ _ hc]
    rw [hsum]
    exact mul_ne_zero hc h

theorem IsDistribution.distribution_eq (h : IsDistribution mix) : distribution mix = mix := by
  have hsum : ∑ i, mix.get i ≠ 0 := by
    rw [h.sum_eq_one]
    exact one_ne_zero
  apply ext_get
  intro i
  rw [distribution_get hsum, h.sum_eq_one, div_one]

/-- A distribution with the support and the ratios of some weights, uniform if they are all zero. -/
structure Mixes (w mix : Vector ℚ n) : Prop extends IsDistribution mix where
  support : (∃ i, w.get i ≠ 0) → ∀ i, mix.get i ≠ 0 ↔ w.get i ≠ 0
  ratio : (∃ i, w.get i ≠ 0) → ∀ i j, mix.get i / mix.get j = w.get i / w.get j
  uniform : (∀ i, w.get i = 0) → ∀ i, mix.get i = 1 / n

theorem mixes_of_sum_pos (hw : ∀ i, 0 ≤ w.get i) (hsum : 0 < ∑ i, w.get i) :
    Mixes w (distribution w) where
  toIsDistribution := isDistribution_of_weights hw hsum (distribution_get hsum.ne')
  support _ i := by simp [distribution_get hsum.ne', hsum.ne']
  ratio _ i j := by
    rw [distribution_get hsum.ne', distribution_get hsum.ne', div_div_div_cancel_right₀ hsum.ne']
  uniform hzero := absurd ((sum_get_eq_zero_iff hw).mpr hzero) hsum.ne'

theorem mixes_of_forall_eq_zero (hn : 0 < n) (hw : ∀ i, w.get i = 0) :
    Mixes w (distribution w) := by
  have hget : ∀ i, (distribution w).get i = 1 / n :=
    distribution_get_of_sum_eq_zero (by simp [hw])
  exact
    { nonneg := fun i => by rw [hget]; positivity
      sum_eq_one := by simp [hget, hn.ne']
      support := by simp [hw]
      ratio := by simp [hw]
      uniform := fun _ => hget }

theorem mixes_distribution (hn : 0 < n) (hw : ∀ i, 0 ≤ w.get i) : Mixes w (distribution w) := by
  rcases (Finset.sum_nonneg fun i _ => hw i).eq_or_lt with hsum | hsum
  · exact mixes_of_forall_eq_zero hn ((sum_get_eq_zero_iff hw).mp hsum.symm)
  · exact mixes_of_sum_pos hw hsum

theorem start_add_lt (h : stop ≤ n) (i : Fin (stop - start)) : start + i.val < n := by omega

def segment (values : Vector ℚ n) (start : ℕ) (h : stop ≤ n) : Vector ℚ (stop - start) :=
  Vector.ofFn fun i => values.get ⟨start + i.val, start_add_lt h i⟩

theorem segment_map (f : ℚ → ℚ) (values : Vector ℚ n) (h : stop ≤ n) :
    segment (values.map f) start h = (segment values start h).map f := by
  apply ext_get
  simp [segment]

theorem segment_zero (values : Vector ℚ n) : segment values 0 le_rfl = values := by
  apply ext_get
  simp [segment]

theorem distributionOver?_eq (values : Vector ℚ n) (hle : start ≤ stop) (h : stop ≤ n) :
    distributionOver? values start stop = .ok (distribution (segment values start h)) :=
  dif_pos ⟨hle.trans h, h⟩

theorem Table.lt_of_storable (h : Table.storable n 1 = true) : n < 0x8000000000000000 := by
  simp only [Table.storable, Bool.and_eq_true, decide_eq_true_eq] at h
  omega

theorem position_of_lt {k : UInt64} (h : k.toNat < 0x8000000000000000) : position n k = k.toNat :=
  if_pos (UInt64.lt_iff_toNat_lt.mpr h)

/-- A range of words below 2⁶³ is the range of the labels that they stand for. -/
theorem distributionAt?_eq (values : Vector ℚ n) {first last : UInt64}
    (hfirst : first.toNat < 0x8000000000000000) (hlast : last.toNat < 0x8000000000000000) :
    (distributionAt? values first last).map Vector.toList =
      (distributionOver? values first.toNat last.toNat).map Vector.toList := by
  unfold distributionAt?
  rw [position_of_lt hfirst, position_of_lt hlast]

/-- Values that are not negative, over a range of labels that is not empty, give a mix of them.  It
stays the same when all values are multiplied by a positive number, and it is the mix that its own
weights give. -/
theorem mixes_of_distributionOver? {values : Vector ℚ n} (hlt : start < stop) (hstop : stop ≤ n)
    (hvalues : ∀ i, 0 ≤ (segment values start hstop).get i) :
    ∃ mix, distributionOver? values start stop = .ok mix ∧
      Mixes (segment values start hstop) mix ∧
      (∀ c > 0, distributionOver? (values.map fun v => c * v) start stop = .ok mix) ∧
      distributionOver? mix 0 (stop - start) = .ok mix ∧
      (Table.storable n 1 = true → ∀ first last : UInt64, first.toNat = start →
        last.toNat = stop → (distributionAt? values first last).map Vector.toList =
          .ok mix.toList) := by
  have hmixes := mixes_distribution (Nat.sub_pos_of_lt hlt) hvalues
  refine ⟨_, distributionOver?_eq values hlt.le hstop, hmixes, ?_, ?_, ?_⟩
  · intro c hc
    rw [distributionOver?_eq _ hlt.le hstop, segment_map, distribution_map_mul hc.ne']
  · refine (distributionOver?_eq _ (Nat.zero_le _) le_rfl).trans ?_
    rw [segment_zero]
    exact congrArg Except.ok hmixes.distribution_eq
  · rintro hstorable first last rfl rfl
    have hn := Table.lt_of_storable hstorable
    rw [distributionAt?_eq values (by omega) (by omega), distributionOver?_eq values hlt.le hstop]
    rfl

/-- A negative value before the labels 1 to 10 and a run of zeros among them. -/
def partlyZero : Vector ℚ 12 := #v[-7, 1, 0, 0, 2, 1 / 2, 3, 1, 1 / 2, 0, 2, 9]

/-- The ten values are summed in one block of eight and two more; the two zeros are no support. -/
theorem mixes_of_distributionOver?_partlyZero :
    (1 < 11 ∧ 11 ≤ 12 ∧ ∀ i, 0 ≤ (segment partlyZero 1 (by decide : 11 ≤ 12)).get i) ∧
      (∃ mix, mix = #v[1 / 10, 0, 0, 1 / 5, 1 / 20, 3 / 10, 1 / 10, 1 / 20, 0, 1 / 5] ∧
        distributionOver? partlyZero 1 11 = .ok mix ∧
        Mixes (segment partlyZero 1 (by decide : 11 ≤ 12)) mix ∧
        distributionOver? (partlyZero.map fun v => 3 * v) 1 11 = .ok mix ∧
        distributionOver? mix 0 10 = .ok mix ∧
        (distributionAt? partlyZero 1 11).map Vector.toList = .ok mix.toList) ∧
      ∃ mix, mix = #v[1 / 2, 1 / 2] ∧ distributionOver? partlyZero 2 4 = .ok mix ∧
        Mixes (segment partlyZero 2 (by decide : 4 ≤ 12)) mix := by
  have hvalues : ∀ i, 0 ≤ (segment partlyZero 1 (by decide : 11 ≤ 12)).get i := by decide +kernel
  obtain ⟨mix, hmix, hmixes, hscale, hagain, hwords⟩ :=
    mixes_of_distributionOver? (by decide : 1 < 11) (by decide : 11 ≤ 12) hvalues
  have hzeros : ∀ i, 0 ≤ (segment partlyZero 2 (by decide : 4 ≤ 12)).get i := by decide +kernel
  obtain ⟨even, heven, hevenMixes, -⟩ :=
    mixes_of_distributionOver? (by decide : 2 < 4) (by decide : 4 ≤ 12) hzeros
  refine ⟨⟨by decide, by decide, hvalues⟩, ⟨mix, ?_, hmix, hmixes, hscale 3 (by decide), hagain,
    hwords (by decide) 1 11 rfl rfl⟩, even, ?_, heven, hevenMixes⟩
  · rw [distributionOver?_eq _ (by decide) (by decide)] at hmix
    rw [← Except.ok.inj hmix]
    decide +kernel
  · rw [distributionOver?_eq _ (by decide) (by decide)] at heven
    rw [← Except.ok.inj heven]
    decide +kernel

end Bimatrix
