import Mathlib.Data.Fintype.Card
import Mathlib.LinearAlgebra.Matrix.Defs
import Mathlib.Tactic
import Bimatrix.Pivot
import Bimatrix.Proofs.Table

/-! # Bases under pivots

What a pivot does to the basis, whatever the arithmetic: one label replaces another in one row.
-/
namespace Bimatrix

namespace Tableau

variable {α : Type} {size labels : Nat}

def label (t : Tableau α size labels) (i : Fin size) : Fin labels := (t.rows.get i).label

def entries (t : Tableau α size labels) : Matrix (Fin size) (Fin labels) α :=
  fun i j => (t.rows.get i).coefficients.get j

/-- The value of the basic label of a row. -/
def level (t : Tableau α size labels) (i : Fin size) : α := (t.rows.get i).value

theorem isBasic_iff {t : Tableau α size labels} {l : Nat} :
    t.isBasic l = true ↔ ∃ i, (t.label i).val = l := by
  simp only [isBasic, label, Vector.any_iff_exists, beq_iff_eq]
  constructor
  · rintro ⟨i, hi, h⟩
    exact ⟨⟨i, hi⟩, h⟩
  · rintro ⟨i, h⟩
    exact ⟨i.val, i.isLt, h⟩

theorem isBasic_val_iff {t : Tableau α size labels} {l : Fin labels} :
    t.isBasic l.val = true ↔ l ∈ Set.range t.label := by
  simp [isBasic_iff, Fin.ext_iff]

theorem isBasic_eq_false_iff {t : Tableau α size labels} {l : Nat} :
    t.isBasic l = false ↔ ∀ i, (t.label i).val ≠ l := by
  rw [← Bool.not_eq_true, isBasic_iff, not_exists]

def basisSet (t : Tableau α size labels) : Finset (Fin labels) := Finset.univ.image t.label

@[simp] theorem mem_basisSet {t : Tableau α size labels} {l : Fin labels} :
    l ∈ t.basisSet ↔ l ∈ Set.range t.label := by
  simp [basisSet]

theorem card_basisSet {t : Tableau α size labels} (h : Function.Injective t.label) :
    t.basisSet.card = size := by
  rw [basisSet, Finset.card_image_of_injective _ h, Finset.card_univ, Fintype.card_fin]

variable [Scalar α]

theorem value_of_basic {t : Tableau α size labels} (h : Function.Injective t.label) (i : Fin size) :
    t.value (t.label i) = t.level i := by
  have hmem : t.rows.get i ∈ t.rows.toList := by simp [Vector.get]
  obtain ⟨row, hrow⟩ := Option.isSome_iff_exists.mp
    (List.find?_isSome.mpr ⟨t.rows.get i, hmem, by simp [label]⟩ :
      (t.rows.toList.find? fun row => row.label == t.label i).isSome)
  have heq : row.label = t.label i := by simpa using List.find?_some hrow
  obtain ⟨j, hj, rfl⟩ := List.mem_iff_getElem.mp (List.mem_of_find?_eq_some hrow)
  have hji : (⟨j, by simpa using hj⟩ : Fin size) = i := h heq
  subst hji
  simp [value, hrow, level, Vector.get]

theorem value_of_not_basic {t : Tableau α size labels} {l : Fin labels}
    (h : l ∉ Set.range t.label) : t.value l = 0 := by
  have hnone : (t.rows.toList.find? fun row => row.label == l) = none := by
    rw [List.find?_eq_none]
    intro row hrow hl
    obtain ⟨j, hj, rfl⟩ := List.mem_iff_getElem.mp hrow
    exact h ⟨⟨j, by simpa using hj⟩, by simpa [label, Vector.get] using hl⟩
  simp [value, hnone]

theorem exchange_get (t : Tableau α size labels) (r i : Fin size) (q : Fin labels) :
    (t.exchange r q).rows.get i = if i = r then (t.rows.get r).normalize q
      else (t.rows.get i).eliminate ((t.rows.get r).normalize q) q := by
  simp [exchange]

theorem exchange_label (t : Tableau α size labels) (r : Fin size) (q : Fin labels) :
    (t.exchange r q).label = Function.update t.label r q := by
  funext i
  rw [label, exchange_get, Function.update_apply]
  split_ifs
  · rfl
  · unfold Row.eliminate
    dsimp only
    split_ifs <;> rfl

/-- All that a successful pivot does. -/
theorem pivot_eq_ok_iff {t : Tableau α size labels} {q : Nat} {x : Exchange α size labels} :
    t.pivot q = .ok x ↔ ∃ h : q < labels, t.isBasic q = false ∧
      t.leavingRow? ⟨q, h⟩ = some x.row ∧ x = ⟨x.row, t.label x.row, t.exchange x.row ⟨q, h⟩⟩ := by
  unfold pivot
  by_cases h : q < labels
  · cases hb : t.isBasic q with
    | true => simp [h]
    | false =>
      cases hr : t.leavingRow? ⟨q, h⟩ with
      | none => simp [h, hr]
      | some r =>
        simp only [h, hr, dite_true, Bool.false_eq_true, if_false, Except.ok.injEq,
          exists_true_left, true_and, Option.some.injEq]
        constructor
        · rintro rfl
          exact ⟨rfl, rfl⟩
        · rintro ⟨rfl, hx⟩
          exact hx.symm
  · simp [h]

theorem pivot_label {t : Tableau α size labels} {q : Fin labels} {x : Exchange α size labels}
    (h : t.pivot q.val = .ok x) :
    x.leaving = t.label x.row ∧ x.tableau.label = Function.update t.label x.row q := by
  obtain ⟨_, -, -, hx⟩ := pivot_eq_ok_iff.mp h
  rw [hx]
  exact ⟨rfl, exchange_label t x.row q⟩

theorem leaving_ne {t : Tableau α size labels} {q : Fin labels} {x : Exchange α size labels}
    (h : t.pivot q.val = .ok x) : x.leaving ≠ q := by
  obtain ⟨_, hq, -, -⟩ := pivot_eq_ok_iff.mp h
  rw [(pivot_label h).1]
  exact fun heq => isBasic_eq_false_iff.mp hq x.row (congrArg Fin.val heq)

theorem basisSet_pivot {t : Tableau α size labels} (hinj : Function.Injective t.label)
    {q : Fin labels} {x : Exchange α size labels} (h : t.pivot q.val = .ok x) :
    x.tableau.basisSet = (insert q t.basisSet).erase x.leaving := by
  obtain ⟨hleaving, hlabel⟩ := pivot_label h
  ext k
  simp only [Finset.mem_erase, Finset.mem_insert, mem_basisSet, Set.mem_range, hlabel]
  constructor
  · rintro ⟨i, rfl⟩
    rw [Function.update_apply]
    split_ifs with hi
    · exact ⟨(leaving_ne h).symm, .inl rfl⟩
    · rw [hleaving]
      exact ⟨hinj.ne hi, .inr ⟨i, rfl⟩⟩
  · rintro ⟨hne, rfl | ⟨i, rfl⟩⟩
    · exact ⟨x.row, Function.update_self ..⟩
    · have hi : i ≠ x.row := fun heq => hne (heq ▸ hleaving.symm)
      exact ⟨i, Function.update_of_ne hi ..⟩

/-- A pivot on a label in range that is not basic fails only when no row qualifies. -/
theorem exists_pivot_of_leavingRow {t : Tableau α size labels} {q : Fin labels} {r : Fin size}
    (hq : t.isBasic q.val = false) (hr : t.leavingRow? q = some r) :
    ∃ x, t.pivot q.val = .ok x :=
  ⟨⟨r, t.label r, t.exchange r q⟩, pivot_eq_ok_iff.mpr ⟨q.isLt, hq, hr, rfl⟩⟩

/-- A label in range that is not basic is refused for want of a row only. -/
theorem eq_degeneratePivot_of_pivot {t : Tableau α size labels} {q : Nat} {f : Fault}
    (hlt : q < labels) (hq : t.isBasic q = false) (h : t.pivot q = .error f) :
    f = .degeneratePivot q := by
  unfold pivot at h
  rw [dif_pos hlt, if_neg (Bool.eq_false_iff.mp hq)] at h
  cases hr : t.leavingRow? ⟨q, hlt⟩ with
  | none =>
    rw [hr] at h
    exact (Except.error.inj h).symm
  | some r =>
    rw [hr] at h
    cases h

/-- The tableaus that successful pivots, on any labels, lead to. -/
inductive Pivots (t : Tableau α size labels) : Tableau α size labels → Prop
  | refl : t.Pivots t
  | step {u : Tableau α size labels} {q : Nat} {x : Exchange α size labels} :
      t.Pivots u → u.pivot q = .ok x → t.Pivots x.tableau

end Tableau

end Bimatrix
