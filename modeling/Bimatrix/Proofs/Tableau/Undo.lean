import Mathlib.Tactic
import Bimatrix.Proofs.Tableau.Clamp
import Bimatrix.Proofs.Tableau.Parts
import Bimatrix.Proofs.Tableau.Runs

/-! # Undoing a pivot

While the clamp is idle, the label that has left can enter again.  Where all values were positive
the ratio test finds the same row, because every other row that has come to qualify had a negative
entry and so has room for more; and the second elimination cancels the first in every entry.
-/
namespace Bimatrix.Tableau

variable {size labels : ℕ} {t : Tableau ℚ size labels} {r : Fin size} {q : Fin labels}

theorem exchange_entries_leaving (ht : t.UnitBasis) (hr : t.entries r q ≠ 0) (i : Fin size) :
    (t.exchange r q).entries i (t.label r) =
      if i = r then 1 / t.entries r q else -(t.entries i q / t.entries r q) := by
  rw [exchange_entries hr, ht r r, Matrix.one_apply_eq]
  split_ifs with hi
  · rfl
  · rw [ht i r, Matrix.one_apply_ne hi]
    ring

theorem exchange_level_of_raise {i : Fin size} (h : t.raise r q i = 0) :
    (t.exchange r q).level i =
      if i = r then t.ratio q r else t.level i - t.entries i q * t.ratio q r := by
  rw [← exchange_level_sub_raise, h, sub_zero]

/-- In the row that was used the label that left has its old value as ratio. -/
theorem ratio_exchange_self (ht : t.UnitBasis) (hr : t.entries r q ≠ 0) :
    (t.exchange r q).ratio (t.label r) r = t.level r := by
  rw [ratio, exchange_entries_leaving ht hr, exchange_level, if_pos rfl, if_pos rfl, ratio]
  field_simp

/-- At its old value the label that left takes from every other row what the pivot gave. -/
theorem exchange_level_sub_level (ht : t.UnitBasis) (hr : t.entries r q ≠ 0) {i : Fin size}
    (hi : i ≠ r) (hidle : t.raise r q i = 0) :
    (t.exchange r q).level i - (t.exchange r q).entries i (t.label r) * t.level r =
      t.level i := by
  rw [exchange_level_of_raise hidle, exchange_entries_leaving ht hr, if_neg hi, if_neg hi, ratio]
  ring

theorem leavingRow?_exchange (ht : t.UnitBasis) (hpos : ∀ i, 0 < t.level i)
    (hr : 0 < t.entries r q) (hentry : t.entries r q < 1 / Scalar.cutoff)
    (hidle : ∀ i, t.raise r q i = 0) : (t.exchange r q).leavingRow? (t.label r) = some r := by
  have hqualifies : Scalar.cutoff < (t.exchange r q).entries r (t.label r) := by
    rw [exchange_entries_leaving ht hr.ne', if_pos rfl]
    exact (lt_one_div hr Scalar.cutoff_pos).mp hentry
  -- a row that qualifies beside `r` would still be positive at the old value of `r`
  have hlt (i : Fin size) (hi : i ≠ r)
      (hentry : Scalar.cutoff < (t.exchange r q).entries i (t.label r)) :
      (t.exchange r q).ratio (t.label r) r < (t.exchange r q).ratio (t.label r) i := by
    have hroom := exchange_level_sub_level ht hr.ne' hi (hidle i)
    rw [ratio_exchange_self ht hr.ne', ratio, lt_div_iff₀ (Scalar.cutoff_pos.trans hentry)]
    linarith [hpos i]
  apply leavingRow?_eq_some_of_unique
  · refine ⟨hqualifies, fun i hentry => ?_⟩
    by_cases hi : i = r
    · rw [hi]
    · exact (hlt i hi hentry).le
  · intro i hattains
    by_contra hi
    exact absurd (hattains.ratio_le r hqualifies) (not_le.mpr (hlt i hi hattains.qualifies))

theorem exchange_exchange_entries (ht : t.UnitBasis) (hr : t.entries r q ≠ 0) :
    ((t.exchange r q).exchange r (t.label r)).entries = t.entries := by
  have hback : (t.exchange r q).entries r (t.label r) ≠ 0 := by
    rw [exchange_entries_leaving ht hr, if_pos rfl]
    exact one_div_ne_zero hr
  funext i j
  rw [exchange_entries hback, exchange_entries_leaving ht hr, exchange_entries_leaving ht hr,
    exchange_entries hr, exchange_entries hr, if_pos rfl, if_pos rfl]
  split_ifs with hi
  · rw [hi]
    field_simp
  · field_simp
    ring

theorem exchange_exchange_level (ht : t.UnitBasis) (hnonneg : ∀ i, 0 ≤ t.level i)
    (hr : t.entries r q ≠ 0) (hidle : ∀ i, t.raise r q i = 0) :
    ((t.exchange r q).exchange r (t.label r)).level = t.level := by
  have hratio := ratio_exchange_self ht hr
  have hidle' (i : Fin size) : (t.exchange r q).raise r (t.label r) i = 0 := by
    rw [raise_eq_zero_iff]
    intro hi _
    rw [hratio, exchange_level_sub_level ht hr hi (hidle i)]
    exact hnonneg i
  funext i
  rw [exchange_level_of_raise (hidle' i), hratio]
  split_ifs with hi
  · rw [hi]
  · exact exchange_level_sub_level ht hr hi (hidle i)

/-- Two exchanges in one row, the second bringing back the label that left, change nothing. -/
theorem exchange_exchange (ht : t.UnitBasis) (hnonneg : ∀ i, 0 ≤ t.level i)
    (hr : t.entries r q ≠ 0) (hidle : ∀ i, t.raise r q i = 0) :
    (t.exchange r q).exchange r (t.label r) = t := by
  apply ext_parts
  · rw [exchange_label, exchange_label, Function.update_idem, Function.update_eq_self]
  · exact exchange_exchange_entries ht hr
  · exact exchange_exchange_level ht hnonneg hr hidle

theorem isBasic_leaving {x : Exchange ℚ size labels} (ht : t.UnitBasis)
    (hx : t.pivot q.val = .ok x) : x.tableau.isBasic x.leaving = false := by
  obtain ⟨hleaving, hlabel⟩ := pivot_label hx
  rw [isBasic_eq_false_iff]
  intro i hi
  rw [hlabel, Function.update_apply] at hi
  split_ifs at hi with hrow
  · exact leaving_ne hx (Fin.ext hi).symm
  · exact hrow (ht.inverseForm.label_injective ((Fin.ext hi).trans hleaving))

/-- From a tableau with positive values, a pivot whose entry is not too large and in which the clamp
changes no value is undone by the pivot on the label that left: in the same row the label that
entered leaves, and the tableau is the old one again. -/
theorem pivot_leaving_of_pivot {x : Exchange ℚ size labels} (ht : t.UnitBasis)
    (hpos : ∀ i, 0 < t.level i) (hx : t.pivot q.val = .ok x)
    (hentry : t.entries x.row q < 1 / Scalar.cutoff) (hidle : ∀ i, t.raise x.row q i = 0) :
    x.tableau.pivot x.leaving = .ok ⟨x.row, q, t⟩ := by
  obtain ⟨_, hr, hrow, hexchange⟩ := pivot_eq_ok_iff.mp hx
  have hpositive := entry_pos_of_leavingRow? hrow
  have hleaving : x.leaving = t.label x.row := congrArg Exchange.leaving hexchange
  have htableau : x.tableau = t.exchange x.row q := congrArg Exchange.tableau hexchange
  have hback : x.tableau.leavingRow? x.leaving = some x.row := by
    rw [htableau, hleaving]
    exact leavingRow?_exchange ht hpos hpositive hentry hidle
  have hentered : x.tableau.label x.row = q := by
    rw [(pivot_label hx).2, Function.update_self]
  have hrestored : x.tableau.exchange x.row x.leaving = t := by
    rw [htableau, hleaving]
    exact exchange_exchange ht (fun i => (hpos i).le) hpositive.ne' hidle
  refine pivot_eq_ok_iff.mpr ⟨x.leaving.isLt, isBasic_leaving ht hx, hback, ?_⟩
  rw [hentered, hrestored]

/-- When the last label has entered in the first row, the second row qualifies for the way back. -/
def threeSigns : Tableau ℚ 3 4 :=
  ⟨#v[⟨0, #v[1, 0, 0, 2], 2⟩, ⟨1, #v[0, 1, 0, -1], 1⟩, ⟨2, #v[0, 0, 1, 1], 5⟩]⟩

theorem pivot_leaving_of_pivot_threeSigns :
    threeSigns.UnitBasis ∧ (∀ i, 0 < threeSigns.level i) ∧
      threeSigns.pivot 3 = .ok ⟨0, 0, threeSigns.exchange 0 3⟩ ∧
      threeSigns.entries 0 3 < 1 / Scalar.cutoff ∧ (∀ i, threeSigns.raise 0 3 i = 0) ∧
      Scalar.cutoff < (threeSigns.exchange 0 3).entries 1 0 ∧
      (threeSigns.exchange 0 3).pivot 0 = .ok ⟨0, 3, threeSigns⟩ := by
  have hunit : threeSigns.UnitBasis := by
    intro i k
    rw [Matrix.one_apply]
    revert i k
    decide +kernel
  have hpos : ∀ i, 0 < threeSigns.level i := by decide +kernel
  have hpivot : threeSigns.pivot 3 = .ok ⟨0, 0, threeSigns.exchange 0 3⟩ :=
    pivot_eq_ok_iff.mpr ⟨by decide, by decide +kernel, by decide +kernel, rfl⟩
  have hentry : threeSigns.entries 0 3 < 1 / Scalar.cutoff := by decide +kernel
  have hidle : ∀ i, threeSigns.raise 0 3 i = 0 := by decide +kernel
  exact ⟨hunit, hpos, hpivot, hentry, hidle, by decide +kernel,
    pivot_leaving_of_pivot (q := 3) hunit hpos hpivot hentry hidle⟩

end Bimatrix.Tableau
