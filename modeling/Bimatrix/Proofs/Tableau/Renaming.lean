import Mathlib.Tactic
import Bimatrix.Proofs.Tableau.InverseForm
import Bimatrix.Proofs.Tableau.Parts

/-! # Tableaus under other names

The same system with its labels under other names and its rows in another order.  A pivot depends on
the names only through the tie rule of the ratio test: where a single row attains the least ratio,
the pivot on the renamed label makes the renamed tableau.
-/
namespace Bimatrix

open Equiv

variable {α : Type} {size labels : ℕ} {ι : Perm (Fin labels)} {ρ : Perm (Fin size)}

def Row.rename (ι : Perm (Fin labels)) (row : Row α labels) : Row α labels :=
  ⟨ι row.label, Vector.ofFn fun l => row.coefficients.get (ι.symm l), row.value⟩

/-- The other name of a label that is given as a number. -/
def renamed (ι : Perm (Fin labels)) (l : ℕ) : ℕ := if h : l < labels then ι ⟨l, h⟩ else l

theorem renamed_val (ι : Perm (Fin labels)) (l : Fin labels) : renamed ι l.val = (ι l).val :=
  dif_pos l.isLt

def Fault.rename (ι : Perm (Fin labels)) : Fault → Fault
  | .degeneratePivot q => .degeneratePivot (renamed ι q)
  | fault => fault

namespace Tableau

/-- The labels under other names, and row `i` in place `ρ i`. -/
def rename (ι : Perm (Fin labels)) (ρ : Perm (Fin size)) (t : Tableau α size labels) :
    Tableau α size labels :=
  ⟨Vector.ofFn fun i => (t.rows.get (ρ.symm i)).rename ι⟩

end Tableau

def Exchange.rename (ι : Perm (Fin labels)) (ρ : Perm (Fin size)) (x : Exchange α size labels) :
    Exchange α size labels :=
  ⟨ρ x.row, ι x.leaving, x.tableau.rename ι ρ⟩

namespace Tableau

@[simp] theorem rename_label (t : Tableau α size labels) (i : Fin size) :
    (t.rename ι ρ).label i = ι (t.label (ρ.symm i)) := by
  simp [label, rename, Row.rename]

@[simp] theorem rename_entries (t : Tableau α size labels) (i : Fin size) (l : Fin labels) :
    (t.rename ι ρ).entries i l = t.entries (ρ.symm i) (ι.symm l) := by
  simp [entries, rename, Row.rename]

@[simp] theorem rename_level (t : Tableau α size labels) (i : Fin size) :
    (t.rename ι ρ).level i = t.level (ρ.symm i) := by
  simp [level, rename, Row.rename]

theorem isBasic_rename (t : Tableau α size labels) (q : Fin labels) :
    (t.rename ι ρ).isBasic (ι q).val = t.isBasic q.val := by
  rw [Bool.eq_iff_iff, isBasic_val_iff, isBasic_val_iff]
  constructor
  · rintro ⟨i, hi⟩
    rw [rename_label] at hi
    exact ⟨ρ.symm i, ι.injective hi⟩
  · rintro ⟨i, rfl⟩
    exact ⟨ρ i, by simp⟩

theorem value_rename [Scalar α] {t : Tableau α size labels} (h : Function.Injective t.label)
    (l : Fin labels) : (t.rename ι ρ).value (ι l) = t.value l := by
  have hinj : Function.Injective (t.rename ι ρ).label := by
    intro i j hij
    rw [rename_label, rename_label] at hij
    exact ρ.symm.injective (h (ι.injective hij))
  by_cases hl : l ∈ Set.range t.label
  · obtain ⟨i, rfl⟩ := hl
    have hlabel : (t.rename ι ρ).label (ρ i) = ι (t.label i) := by simp
    rw [value_of_basic h, ← hlabel, value_of_basic hinj, rename_level, symm_apply_apply]
  · have hnot : ι l ∉ Set.range (t.rename ι ρ).label := by
      rw [← isBasic_val_iff, isBasic_rename, isBasic_val_iff]
      exact hl
    rw [value_of_not_basic hl, value_of_not_basic hnot]

variable {t : Tableau ℚ size labels} {q : Fin labels} {r : Fin size}

instance (t : Tableau ℚ size labels) (q : Fin labels) (r : Fin size) : Decidable (t.Attains q r) :=
  decidable_of_iff (Scalar.cutoff < t.entries r q ∧
    ∀ i, Scalar.cutoff < t.entries i q → t.ratio q r ≤ t.ratio q i)
    ⟨fun h => ⟨h.1, h.2⟩, fun h => ⟨h.qualifies, h.ratio_le⟩⟩

/-- No two rows attain the least ratio. -/
def TieFree (t : Tableau ℚ size labels) (q : Fin labels) : Prop :=
  ∀ r s, t.Attains q r → t.Attains q s → r = s

instance (t : Tableau ℚ size labels) (q : Fin labels) : Decidable (t.TieFree q) :=
  inferInstanceAs (Decidable (∀ _ _, _ → _ → _))

theorem ratio_rename (t : Tableau ℚ size labels) (q : Fin labels) (i : Fin size) :
    (t.rename ι ρ).ratio (ι q) i = t.ratio q (ρ.symm i) := by
  rw [ratio, rename_level, rename_entries, symm_apply_apply, ratio]

theorem attains_rename_iff {i : Fin size} :
    (t.rename ι ρ).Attains (ι q) i ↔ t.Attains q (ρ.symm i) := by
  constructor
  · rintro ⟨hqualifies, hle⟩
    simp only [rename_entries, symm_apply_apply, ratio_rename] at hqualifies hle
    refine ⟨hqualifies, fun k hk => ?_⟩
    have hk' := hle (ρ k)
    rw [symm_apply_apply] at hk'
    exact hk' hk
  · rintro ⟨hqualifies, hle⟩
    constructor
    · rw [rename_entries, symm_apply_apply]
      exact hqualifies
    · intro k hk
      rw [rename_entries, symm_apply_apply] at hk
      rw [ratio_rename, ratio_rename]
      exact hle _ hk

theorem leavingRow?_rename (h : t.TieFree q) :
    (t.rename ι ρ).leavingRow? (ι q) = (t.leavingRow? q).map ρ := by
  cases hr : t.leavingRow? q with
  | none =>
    rw [leavingRow?_eq_none_iff] at hr
    rw [Option.map_none, leavingRow?_eq_none_iff]
    intro i
    rw [rename_entries, symm_apply_apply]
    exact hr _
  | some r =>
    have hattains := attains_of_leavingRow? hr
    apply leavingRow?_eq_some_of_unique
    · rw [attains_rename_iff, symm_apply_apply]
      exact hattains
    · intro i hi
      rw [← symm_apply_eq]
      exact h _ _ (attains_rename_iff.mp hi) hattains

theorem exchange_rename (hr : t.entries r q ≠ 0) :
    (t.rename ι ρ).exchange (ρ r) (ι q) = (t.exchange r q).rename ι ρ := by
  have hentry : (t.rename ι ρ).entries (ρ r) (ι q) ≠ 0 := by
    rw [rename_entries, symm_apply_apply, symm_apply_apply]
    exact hr
  apply ext_parts
  · funext i
    rw [exchange_label, Function.update_apply, rename_label, rename_label, exchange_label,
      Function.update_apply, apply_ite ι]
    exact if_congr (symm_apply_eq ρ).symm rfl rfl
  · funext i l
    rw [rename_entries (t.exchange r q), exchange_entries hr, exchange_entries hentry]
    simp only [rename_entries, symm_apply_apply, symm_apply_eq]
  · funext i
    rw [rename_level (t.exchange r q), exchange_level, exchange_level]
    simp only [rename_entries, rename_level, ratio_rename, symm_apply_apply, symm_apply_eq]

/-- Where no ratio is tied, a pivot on a label that is not basic does the same under other names. -/
theorem pivot_rename (hq : t.isBasic q.val = false) (h : t.TieFree q) :
    (t.rename ι ρ).pivot (ι q).val =
      ((t.pivot q.val).map (Exchange.rename ι ρ)).mapError (Fault.rename ι) := by
  have hq' := (isBasic_rename (ι := ι) (ρ := ρ) t q).trans hq
  unfold pivot
  rw [dif_pos (ι q).isLt, dif_pos q.isLt, if_neg (Bool.eq_false_iff.mp hq'),
    if_neg (Bool.eq_false_iff.mp hq), leavingRow?_rename h]
  cases hr : t.leavingRow? q with
  | none => exact congrArg (fun l => Except.error (Fault.degeneratePivot l)) (renamed_val ι q).symm
  | some r =>
    have hlabel : (t.rename ι ρ).label (ρ r) = ι (t.label r) := by simp
    have hexchange := exchange_rename (ι := ι) (ρ := ρ) (entry_pos_of_leavingRow? hr).ne'
    exact congrArg₂ (fun l u => Except.ok (Exchange.mk (ρ r) l u)) hlabel hexchange

end Tableau

end Bimatrix
