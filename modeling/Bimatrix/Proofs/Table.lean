import Mathlib.Tactic
import Bimatrix.Table

/-! # Entries of vectors and tables

Reading one entry of a vector or a table that an operation has made.
-/
namespace Bimatrix

variable {α β : Type} {n m : ℕ}

theorem get_eq_getElem (x : Vector α n) (i : Fin n) : x.get i = x[i.val] := rfl

@[simp] theorem get_ofFn (f : Fin n → α) (i : Fin n) : (Vector.ofFn f).get i = f i := by
  rw [get_eq_getElem, Vector.getElem_ofFn]

@[simp] theorem get_map (f : α → β) (x : Vector α n) (i : Fin n) :
    (x.map f).get i = f (x.get i) := by
  simp only [get_eq_getElem, Vector.getElem_map]

@[simp] theorem get_zipWith (f : α → β → α) (x : Vector α n) (y : Vector β n) (i : Fin n) :
    (Vector.zipWith f x y).get i = f (x.get i) (y.get i) := by
  simp only [get_eq_getElem, Vector.getElem_zipWith]

theorem ext_get {x y : Vector α n} (h : ∀ i, x.get i = y.get i) : x = y := by
  ext i hi
  exact h ⟨i, hi⟩

theorem get_set (x : Vector α n) (i j : Fin n) (a : α) :
    (x.set i.val a i.isLt).get j = if j = i then a else x.get j := by
  simp only [get_eq_getElem, Vector.getElem_set, Fin.ext_iff, eq_comm]

@[simp] theorem get_append_castAdd (x : Vector α n) (y : Vector α m) (i : Fin n) :
    (x ++ y).get (i.castAdd m) = x.get i := by
  simp only [get_eq_getElem, Fin.val_castAdd, Vector.getElem_append_left i.isLt]

@[simp] theorem get_append_natAdd (x : Vector α n) (y : Vector α m) (j : Fin m) :
    (x ++ y).get (j.natAdd n) = y.get j := by
  simp only [get_eq_getElem, Fin.val_natAdd]
  rw [Vector.getElem_append_right (by omega) (by omega)]
  simp only [Nat.add_sub_cancel_left]

namespace Table

@[simp] theorem entry_ofFn (f : Fin n → Fin m → α) (i : Fin n) (j : Fin m) :
    (ofFn f).entry i j = f i j := by
  simp [ofFn, entry]

@[simp] theorem entry_mapEntries (f : α → β) (t : Table α n m) (i : Fin n) (j : Fin m) :
    (t.mapEntries f).entry i j = f (t.entry i j) := by
  simp [mapEntries, entry]

@[simp] theorem get_column (t : Table α n m) (i : Fin n) (j : Fin m) :
    (Table.column t j).get i = t.entry i j := by
  simp [column, entry]

theorem entry_mem_entries (t : Table α n m) (i : Fin n) (j : Fin m) : t.entry i j ∈ t.entries := by
  apply List.mem_flatMap.mpr
  use t.get i
  constructor
  · simp [get_eq_getElem]
  · simp [entry, get_eq_getElem]

theorem mem_entries_iff {t : Table α n m} {u : α} : u ∈ t.entries ↔ ∃ i j, t.entry i j = u := by
  constructor
  · intro h
    obtain ⟨row, hrow, hu⟩ := List.mem_flatMap.mp h
    obtain ⟨i, hi, rfl⟩ := Vector.getElem_of_mem (Vector.mem_toList_iff.mp hrow)
    obtain ⟨j, hj, rfl⟩ := Vector.getElem_of_mem (Vector.mem_toList_iff.mp hu)
    exact ⟨⟨i, hi⟩, ⟨j, hj⟩, rfl⟩
  · rintro ⟨i, j, rfl⟩
    exact t.entry_mem_entries i j

end Table

end Bimatrix
