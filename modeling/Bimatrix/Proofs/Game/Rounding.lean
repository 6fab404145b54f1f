import Mathlib.Tactic
import Bimatrix.Game
import Bimatrix.Proofs.Binary64.Halving
import Bimatrix.Proofs.Game.Rows
import Bimatrix.Proofs.Table

/-! # Normalized payoffs in binary64

Halving, subtraction, division and addition each round.  Rounding never reverses an order and leaves 0,
1 and 2 alone, so the payoffs stay between 1 and 2 in their order, and the ends are met exactly, unless
halving has made the least and the greatest payoff equal.
-/
namespace Bimatrix

open Binary64

namespace Scalar

/-- A fold that keeps, of two floats, one with the lesser key. -/
theorem exists_foldl_combine? {choose : Float → Float → Float} {key : Float → ℚ}
    (h : ∀ x y : Float, x.isFinite = true → y.isFinite = true →
      choose x y = x ∧ key x ≤ key y ∨ choose x y = y ∧ key y ≤ key x)
    {us : List Float} (hus : ∀ u ∈ us, u.isFinite = true) {b : Float} (hb : b.isFinite = true) :
    ∃ c ∈ b :: us, us.foldl (combine? choose) (some b) = some c ∧ ∀ u ∈ b :: us, key c ≤ key u := by
  induction us generalizing b with
  | nil => exact ⟨b, by simp, rfl, by simp⟩
  | cons x us ih =>
    have hx := hus x (by simp)
    have hfold : (x :: us).foldl (combine? choose) (some b) =
        us.foldl (combine? choose) (some (choose b x)) := rfl
    rw [hfold]
    obtain ⟨hchoose, hkey⟩ | ⟨hchoose, hkey⟩ := h b x hb hx
    · obtain ⟨c, hc, hresult, hleast⟩ := ih (fun u hu => hus u (by simp [hu])) hb
      rw [hchoose]
      refine ⟨c, by simp only [List.mem_cons] at hc ⊢; tauto, hresult, fun u hu => ?_⟩
      obtain rfl | rfl | hu := by simpa using hu
      · exact hleast u (by simp)
      · exact (hleast b (by simp)).trans hkey
      · exact hleast u (by simp [hu])
    · obtain ⟨c, hc, hresult, hleast⟩ := ih (fun u hu => hus u (by simp [hu])) hx
      rw [hchoose]
      refine ⟨c, by simp only [List.mem_cons] at hc ⊢; tauto, hresult, fun u hu => ?_⟩
      obtain rfl | rfl | hu := by simpa using hu
      · exact (hleast x (by simp)).trans hkey
      · exact hleast u (by simp)
      · exact hleast u (by simp [hu])

theorem exists_extreme (choose : Float → Float → Float) (key : Float → ℚ)
    (h : ∀ x y : Float, x.isFinite = true → y.isFinite = true →
      choose x y = x ∧ key x ≤ key y ∨ choose x y = y ∧ key y ≤ key x)
    {us : List Float} (hus : ∀ u ∈ us, u.isFinite = true) (hne : us ≠ []) :
    ∃ c ∈ us, us.foldl (combine? choose) none = some c ∧ ∀ u ∈ us, key c ≤ key u := by
  cases us with
  | nil => exact absurd rfl hne
  | cons b us =>
    have hb := hus b (by simp)
    have hself : (b == b) = true := (beq_iff_value_eq hb hb).mpr rfl
    have hfirst : combine? choose none b = some b := if_pos hself
    rw [List.foldl_cons, hfirst]
    exact exists_foldl_combine? h (fun u hu => hus u (by simp [hu])) hb

variable {us : List Float}

theorem exists_smallest? (hus : ∀ u ∈ us, u.isFinite = true) (hne : us ≠ []) :
    ∃ low ∈ us, smallest? us = some low ∧ ∀ u ∈ us, value low ≤ value u := by
  refine exists_extreme smaller value (fun x y hx hy => ?_) hus hne
  unfold smaller
  split_ifs with hlt
  · exact .inr ⟨rfl, ((lt_iff_value_lt hy hx).mp hlt).le⟩
  · exact .inl ⟨rfl, not_lt.mp (mt (lt_iff_value_lt hy hx).mpr hlt)⟩

theorem exists_largest? (hus : ∀ u ∈ us, u.isFinite = true) (hne : us ≠ []) :
    ∃ high ∈ us, largest? us = some high ∧ ∀ u ∈ us, value u ≤ value high := by
  have hchoose (x y : Float) (hx : x.isFinite = true) (hy : y.isFinite = true) :
      larger x y = x ∧ -value x ≤ -value y ∨ larger x y = y ∧ -value y ≤ -value x := by
    unfold larger
    split_ifs with hlt
    · exact .inr ⟨rfl, neg_le_neg ((lt_iff_value_lt hx hy).mp hlt).le⟩
    · exact .inl ⟨rfl, neg_le_neg (not_lt.mp (mt (lt_iff_value_lt hx hy).mpr hlt))⟩
  obtain ⟨high, hmem, hhigh, hgreatest⟩ :=
    exists_extreme larger (fun u => -value u) hchoose hus hne
  exact ⟨high, hmem, hhigh, fun u hu => neg_le_neg_iff.mp (hgreatest u hu)⟩

end Scalar

namespace Binary64

/-- What the steps of the map make of a payoff between a least and a greatest one. -/
def scaled (low high v : ℚ) : ℚ :=
  rounded (rounded (rounded (rounded (v / 2) - rounded (low / 2)) /
    rounded (rounded (high / 2) - rounded (low / 2))) + 1)

variable {low high v w : ℚ}

theorem scaled_mono (hspan : rounded (low / 2) < rounded (high / 2)) (h : v ≤ w) :
    scaled low high v ≤ scaled low high w := by
  have hpos := rounded_sub_pos hspan
  have hsub := rounded_mono (sub_le_sub_right (half_mono h) (rounded (low / 2)))
  exact rounded_mono (add_le_add_left (rounded_mono (div_le_div_of_nonneg_right hsub hpos.le)) 1)

theorem scaled_low (low high : ℚ) : scaled low high low = 1 := by
  rw [scaled, sub_self, rounded_zero, zero_div, rounded_zero, zero_add, rounded_one]

theorem scaled_high (hspan : rounded (low / 2) < rounded (high / 2)) :
    scaled low high high = 2 := by
  rw [scaled, div_self (rounded_sub_pos hspan).ne', rounded_one, one_add_one_eq_two, rounded_two]

theorem scaled_mem_Icc (hspan : rounded (low / 2) < rounded (high / 2)) (hlow : low ≤ v)
    (hhigh : v ≤ high) : scaled low high v ∈ Set.Icc 1 2 := by
  have hle := scaled_mono hspan hlow
  have hge := scaled_mono hspan hhigh
  rw [scaled_low] at hle
  rw [scaled_high hspan] at hge
  exact ⟨hle, hge⟩

end Binary64

namespace PayoffRange

variable {low high u : Float}

theorem exists_ofPayoffs_eq {us : List Float} (hus : ∀ u ∈ us, u.isFinite = true) (hne : us ≠ []) :
    ∃ low ∈ us, ∃ high ∈ us, (∀ u ∈ us, value low ≤ value u ∧ value u ≤ value high) ∧
      ofPayoffs us = ⟨low * Scalar.half, high * Scalar.half - low * Scalar.half⟩ := by
  obtain ⟨low, hlow, hsmallest, hleast⟩ := Scalar.exists_smallest? hus hne
  obtain ⟨high, hhigh, hlargest, hgreatest⟩ := Scalar.exists_largest? hus hne
  refine ⟨low, hlow, high, hhigh, fun u hu => ⟨hleast u hu, hgreatest u hu⟩, ?_⟩
  simp only [ofPayoffs, hsmallest, hlargest, Option.getD_some]

theorem normalize_constant (hlow : low.isFinite = true) (hhigh : high.isFinite = true)
    (h : rounded (value high / 2) = rounded (value low / 2)) (u : Float) :
    normalize ⟨low * Scalar.half, high * Scalar.half - low * Scalar.half⟩ u = 1 := by
  obtain ⟨hfinite, hvalue⟩ := value_sub_halves hhigh hlow
  rw [h, sub_self, rounded_zero] at hvalue
  exact if_pos ((beq_iff_value_eq (y := 0) hfinite rfl).mpr hvalue)

/-- Between a least and a greatest payoff whose halves differ the map takes its exact steps, each
rounded. -/
theorem value_normalize (hlow : low.isFinite = true) (hhigh : high.isFinite = true)
    (hspan : rounded (value low / 2) < rounded (value high / 2)) (hu : u.isFinite = true)
    (hle : value low ≤ value u) (hge : value u ≤ value high) :
    (normalize ⟨low * Scalar.half, high * Scalar.half - low * Scalar.half⟩ u).isFinite = true ∧
      value (normalize ⟨low * Scalar.half, high * Scalar.half - low * Scalar.half⟩ u) =
        scaled (value low) (value high) (value u) := by
  have hpos := rounded_sub_pos hspan
  obtain ⟨hfspan, hvspan⟩ := value_sub_halves hhigh hlow
  obtain ⟨hfsub, hvsub⟩ := value_sub_halves hu hlow
  have hne : ¬(high * Scalar.half - low * Scalar.half == (0 : Float)) = true := by
    rw [beq_iff_value_eq hfspan rfl, hvspan, value_zero]
    exact hpos.ne'
  have hmap : normalize ⟨low * Scalar.half, high * Scalar.half - low * Scalar.half⟩ u =
      (u * Scalar.half - low * Scalar.half) / (high * Scalar.half - low * Scalar.half) + 1 :=
    if_neg hne
  -- The quotient lies between 0 and 1, and so does what it rounds to.
  have hsub : 0 ≤ rounded (rounded (value u / 2) - rounded (value low / 2)) :=
    rounded_nonneg (sub_nonneg.mpr (half_mono hle))
  have hquot0 := rounded_nonneg (div_nonneg hsub hpos.le)
  have hquot1 := rounded_mono ((div_le_one hpos).mpr
    (rounded_mono (sub_le_sub_right (half_mono hge) (rounded (value low / 2)))))
  rw [rounded_one] at hquot1
  obtain ⟨hfquot, hvquot⟩ := value_div hfsub hfspan (by rw [hvspan]; exact hpos.ne') (by
    rw [hvsub, hvspan, abs_of_nonneg hquot0]
    linarith [two_le_largest])
  rw [hvsub, hvspan] at hvquot
  obtain ⟨hone, htwo⟩ := scaled_mem_Icc hspan hle hge
  have hadd := value_add hfquot (y := 1) rfl (by
    rw [hvquot, value_one]
    change |scaled (value low) (value high) (value u)| ≤ largest
    rw [abs_of_nonneg (by linarith)]
    linarith [two_le_largest])
  rw [hvquot, value_one] at hadd
  rw [hmap]
  exact hadd

end PayoffRange

namespace Game

variable {n m : ℕ}

/-- A payoff of either player and the normalized payoff in its place. -/
inductive Maps (g : Game Float n m) : Float → Float → Prop
  | row (i : Fin n) (j : Fin m) : Maps g (g.row.entry i j) (g.normalizedRow.entry i j)
  | column (i : Fin n) (j : Fin m) : Maps g (g.column.entry i j) (g.normalizedColumn.entry i j)

theorem Maps.mem_payoffs {g : Game Float n m} {u v : Float} (h : g.Maps u v) : u ∈ g.payoffs := by
  cases h with
  | row i j => exact List.mem_append_left _ (g.row.entry_mem_entries i j)
  | column i j => exact List.mem_append_right _ (g.column.entry_mem_entries i j)

theorem Maps.eq_normalize {g : Game Float n m} {u v : Float} (h : g.Maps u v) :
    v = g.range.normalize u := by
  cases h with
  | row i j => exact Table.entry_mapEntries _ g.row i j
  | column i j => exact Table.entry_mapEntries _ g.column i j

theorem isFinite_of_mem_payoffs (g : Game Float n m) {u : Float} (h : u ∈ g.payoffs) :
    u.isFinite = true := by
  rw [← nonFinite?_float_eq_none_iff]
  obtain h | h := List.mem_append.mp h
  · obtain ⟨i, j, rfl⟩ := Table.mem_entries_iff.mp h
    exact g.row_finite i j
  · obtain ⟨i, j, rfl⟩ := Table.mem_entries_iff.mp h
    exact g.column_finite i j

structure Extremes (g : Game Float n m) (low high : Float) : Prop where
  low_mem : low ∈ g.payoffs
  high_mem : high ∈ g.payoffs
  bounds : ∀ u ∈ g.payoffs, value low ≤ value u ∧ value u ≤ value high

theorem exists_range_eq (g : Game Float n m) :
    ∃ low high, g.Extremes low high ∧
      g.range = ⟨low * Scalar.half, high * Scalar.half - low * Scalar.half⟩ := by
  have hne : g.payoffs ≠ [] := List.ne_nil_of_mem (List.mem_append_left _
    (g.row.entry_mem_entries ⟨0, g.rows_pos⟩ ⟨0, g.columns_pos⟩))
  obtain ⟨low, hlow, high, hhigh, hbounds, hrange⟩ :=
    PayoffRange.exists_ofPayoffs_eq (fun u hu => g.isFinite_of_mem_payoffs hu) hne
  exact ⟨low, high, ⟨hlow, hhigh, hbounds⟩, hrange⟩

variable {g : Game Float n m} {low high u v : Float}

/-- The map of a game takes its exact steps between any least and greatest payoff, each rounded, unless
their halves agree. -/
theorem Extremes.normalize_cases (h : g.Extremes low high) :
    (rounded (value low / 2) < rounded (value high / 2) ∧ ∀ u ∈ g.payoffs,
        (g.range.normalize u).isFinite = true ∧
          value (g.range.normalize u) = scaled (value low) (value high) (value u)) ∨
      rounded (value low / 2) = rounded (value high / 2) ∧ ∀ u, g.range.normalize u = 1 := by
  obtain ⟨low', high', h', hrange⟩ := g.exists_range_eq
  have hlow : value low = value low' :=
    le_antisymm (h.bounds low' h'.low_mem).1 (h'.bounds low h.low_mem).1
  have hhigh : value high = value high' :=
    le_antisymm (h'.bounds high h.high_mem).2 (h.bounds high' h'.high_mem).2
  have hflow := g.isFinite_of_mem_payoffs h'.low_mem
  have hfhigh := g.isFinite_of_mem_payoffs h'.high_mem
  rw [hlow, hhigh, hrange]
  obtain hlt | heq := (half_mono (h'.bounds high' h'.high_mem).1).lt_or_eq
  · refine .inl ⟨hlt, fun u hu => ?_⟩
    exact PayoffRange.value_normalize hflow hfhigh hlt (g.isFinite_of_mem_payoffs hu)
      (h'.bounds u hu).1 (h'.bounds u hu).2
  · exact .inr ⟨heq, PayoffRange.normalize_constant hflow hfhigh heq.symm⟩

theorem Extremes.normalize_mem (h : g.Extremes low high) (hu : u ∈ g.payoffs) :
    1 ≤ g.range.normalize u ∧ g.range.normalize u ≤ 2 := by
  obtain ⟨hlt, hscaled⟩ | ⟨-, hconstant⟩ := h.normalize_cases
  · obtain ⟨hf, hvalue⟩ := hscaled u hu
    rw [le_iff_value_le (x := 1) rfl hf, le_iff_value_le (y := 2) hf rfl, hvalue, value_one,
      value_two]
    exact scaled_mem_Icc hlt (h.bounds u hu).1 (h.bounds u hu).2
  · rw [hconstant u]
    decide

theorem Extremes.normalize_mono (h : g.Extremes low high) (hu : u ∈ g.payoffs)
    (hv : v ∈ g.payoffs) (hle : u ≤ v) : g.range.normalize u ≤ g.range.normalize v := by
  obtain ⟨hlt, hscaled⟩ | ⟨-, hconstant⟩ := h.normalize_cases
  · obtain ⟨hf, hvalue⟩ := hscaled u hu
    obtain ⟨hf', hvalue'⟩ := hscaled v hv
    rw [le_iff_value_le hf hf', hvalue, hvalue']
    exact scaled_mono hlt ((le_iff_value_le (g.isFinite_of_mem_payoffs hu)
      (g.isFinite_of_mem_payoffs hv)).mp hle)
  · rw [hconstant u, hconstant v]
    decide

theorem Extremes.halves_lt_iff (h : g.Extremes low high) :
    low * 0.5 < high * 0.5 ↔ rounded (value low / 2) < rounded (value high / 2) := by
  obtain ⟨hf, hvalue⟩ := value_mul_half (g.isFinite_of_mem_payoffs h.low_mem)
  obtain ⟨hf', hvalue'⟩ := value_mul_half (g.isFinite_of_mem_payoffs h.high_mem)
  rw [← hvalue, ← hvalue']
  exact lt_iff_value_lt hf hf'

/-- The ends are met exactly if their halves differ … -/
theorem Extremes.normalize_ends (h : g.Extremes low high) (hlt : low * 0.5 < high * 0.5) :
    g.range.normalize low = 1 ∧ g.range.normalize high = 2 := by
  have hspan := h.halves_lt_iff.mp hlt
  obtain ⟨-, hscaled⟩ | ⟨heq, -⟩ := h.normalize_cases
  · obtain ⟨hf, hvalue⟩ := hscaled low h.low_mem
    obtain ⟨hf', hvalue'⟩ := hscaled high h.high_mem
    rw [scaled_low] at hvalue
    rw [scaled_high hspan] at hvalue'
    exact ⟨eq_of_value_eq hf rfl (hvalue.trans value_one.symm) (by rw [hvalue]; exact one_ne_zero),
      eq_of_value_eq hf' rfl (hvalue'.trans value_two.symm) (by rw [hvalue']; exact two_ne_zero)⟩
  · exact absurd heq hspan.ne

/-- … and otherwise all payoffs become one. -/
theorem Extremes.normalize_eq_one (h : g.Extremes low high) (hle : ¬low * 0.5 < high * 0.5)
    (u : Float) : g.range.normalize u = 1 := by
  obtain ⟨hlt, -⟩ | ⟨-, hconstant⟩ := h.normalize_cases
  · exact absurd (h.halves_lt_iff.mpr hlt) hle
  · exact hconstant u

/-- Every normalized payoff is a number from 1 to 2, and no two payoffs change their order.  If the
least and the greatest payoff differ when they are halved, they become exactly 1 and 2; otherwise
every payoff becomes 1.  They differ when halved if they lie more than twice the least positive number
apart. -/
theorem normalized_outcome (g : Game Float n m) :
    (∀ u v, g.Maps u v → 1 ≤ v ∧ v ≤ 2) ∧
      (∀ u v u' v', g.Maps u v → g.Maps u' v' → u ≤ u' → v ≤ v') ∧
      ∀ low high, low ∈ g.payoffs → high ∈ g.payoffs → (∀ u ∈ g.payoffs, low ≤ u ∧ u ≤ high) →
        (low * 0.5 < high * 0.5 → ∀ v, (g.Maps low v → v = 1) ∧ (g.Maps high v → v = 2)) ∧
        (¬low * 0.5 < high * 0.5 → ∀ u v, g.Maps u v → v = 1) ∧
        (2 ^ (-1073 : ℤ) < value high - value low → low * 0.5 < high * 0.5) := by
  obtain ⟨least, greatest, hextremes, -⟩ := g.exists_range_eq
  refine ⟨fun u v huv => ?_, fun u v u' v' huv huv' hle => ?_, fun low high hlow hhigh hbounds => ?_⟩
  · rw [huv.eq_normalize]
    exact hextremes.normalize_mem huv.mem_payoffs
  · rw [huv.eq_normalize, huv'.eq_normalize]
    exact hextremes.normalize_mono huv.mem_payoffs huv'.mem_payoffs hle
  · have hfinite {u : Float} (hu : u ∈ g.payoffs) := g.isFinite_of_mem_payoffs hu
    have hends : g.Extremes low high := ⟨hlow, hhigh, fun u hu =>
      ⟨(le_iff_value_le (hfinite hlow) (hfinite hu)).mp (hbounds u hu).1,
        (le_iff_value_le (hfinite hu) (hfinite hhigh)).mp (hbounds u hu).2⟩⟩
    refine ⟨fun hlt v => ⟨fun hv => ?_, fun hv => ?_⟩, fun hle u v huv => ?_,
      half_lt_half (hfinite hlow) (hfinite hhigh)⟩
    · rw [hv.eq_normalize, (hends.normalize_ends hlt).1]
    · rw [hv.eq_normalize, (hends.normalize_ends hlt).2]
    · rw [huv.eq_normalize, hends.normalize_eq_one hle]

def fullRange : Game Float 1 2 where
  row := #v[#v[Float.ofBits 0xFFEFFFFFFFFFFFFF, Float.ofBits 0x7FEFFFFFFFFFFFFF]]
  column := #v[#v[0, 1]]
  rows_pos := Nat.one_pos
  columns_pos := Nat.two_pos
  row_finite := by decide
  column_finite := by decide

theorem normalized_outcome_fullRange :
    (∀ u ∈ fullRange.payoffs,
      Float.ofBits 0xFFEFFFFFFFFFFFFF ≤ u ∧ u ≤ Float.ofBits 0x7FEFFFFFFFFFFFFF) ∧
      fullRange.normalizedRow.entry 0 0 = 1 ∧ fullRange.normalizedRow.entry 0 1 = 2 ∧
      fullRange.normalizedColumn.entry 0 0 ≤ fullRange.normalizedColumn.entry 0 1 := by
  obtain ⟨-, hmono, hends⟩ := normalized_outcome fullRange
  have hextreme : ∀ u ∈ fullRange.payoffs,
      Float.ofBits 0xFFEFFFFFFFFFFFFF ≤ u ∧ u ≤ Float.ofBits 0x7FEFFFFFFFFFFFFF := by decide
  obtain ⟨hhalves, -⟩ := hends _ _ (Maps.row 0 0).mem_payoffs (Maps.row 0 1).mem_payoffs hextreme
  exact ⟨hextreme, (hhalves (by decide) _).1 (.row 0 0), (hhalves (by decide) _).2 (.row 0 1),
    hmono _ _ _ _ (.column 0 0) (.column 0 1) (by decide)⟩

def nearZero : Game Float 1 2 where
  row := #v[#v[0, Float.ofBits 1]]
  column := #v[#v[0, 0]]
  rows_pos := Nat.one_pos
  columns_pos := Nat.two_pos
  row_finite := by decide
  column_finite := by decide

/-- Payoffs so near to zero differ, and yet they all become 1. -/
theorem normalized_nearZero :
    nearZero.row.entry 0 0 < nearZero.row.entry 0 1 ∧
      nearZero.normalizedRow.entry 0 0 = 1 ∧ nearZero.normalizedRow.entry 0 1 = 1 := by
  decide +kernel

end Game

end Bimatrix
