import Mathlib.Data.List.Forall2
import Mathlib.Tactic
import Bimatrix.Json.Value

/-! # Reading records

An object is read by its keys, in whatever order they come and whatever other keys there are.  A key
is known by the characters that it stands for.
-/
namespace Bimatrix.Json

theorem mapM_eq_some_of_forall₂ {α β : Type} {f : α → Option β} {xs : List α} {ys : List β}
    (h : List.Forall₂ (fun x y => f x = some y) xs ys) : xs.mapM f = some ys := by
  induction h with
  | nil => rfl
  | cons head _ ih => simp [head, ih]

/-- A string without escapes stands for its characters. -/
theorem decode?_map_toNat (cs : List Char) : decode? (cs.map Char.toNat) = some cs := by
  have hscalar (c : Char) : ¬(0xD800 ≤ c.toNat ∧ c.toNat < 0xE000) := by
    have := c.valid
    simp only [UInt32.isValidChar, Nat.isValidChar] at this
    simp only [Char.toNat]
    omega
  induction cs with
  | nil => rfl
  | cons c cs ih =>
    have hc := hscalar c
    cases cs with
    | nil =>
      rw [List.map_cons, List.map_nil, decode?, if_neg hc, Char.ofNat_toNat]
    | cons d ds =>
      rw [List.map_cons] at ih
      rw [List.map_cons, List.map_cons, decode?, if_neg (by omega), if_neg (by omega), ih,
        Option.map_some, Char.ofNat_toNat]

namespace Value

/-- One field of an object, and no other, has a name. -/
def Holds (fields : List (List Nat × Value)) (name : List Char) (v : Value) : Prop :=
  ∃ before key after, fields = before ++ (key, v) :: after ∧ decode? key = some name ∧
    ∀ f ∈ before ++ after, decode? f.1 ≠ some name

theorem record?_list {names : List (List Char)} {items : List Value}
    (h : items.length = names.length) : record? names (list items) = some items := by
  rw [record?, if_pos h]

/-- The values under the names, provided that every key is text. -/
theorem record?_object {names : List (List Char)} {fields : List (List Nat × Value)}
    {vs : List Value} (decodes : ∀ f ∈ fields, (decode? f.1).isSome = true)
    (h : List.Forall₂ (Holds fields) names vs) : record? names (object fields) = some vs := by
  have hnamed : (fields.mapM fun f => (decode? f.1).map fun key => (key, f.2)) =
      some (fields.map fun f => ((decode? f.1).getD [], f.2)) := by
    refine mapM_eq_some_of_forall₂ (List.forall₂_map_right_iff.mpr (List.forall₂_same.mpr ?_))
    intro f hf
    obtain ⟨name, hname⟩ := Option.isSome_iff_exists.mp (decodes f hf)
    simp [hname]
  have hfilter {name : List Char} {v : Value} (hv : Holds fields name v) :
      ((fields.map fun f => ((decode? f.1).getD [], f.2)).filter fun f => f.1 == name) =
        [(name, v)] := by
    obtain ⟨before, key, after, rfl, hkey, hother⟩ := hv
    have hnone {part : List (List Nat × Value)} (hpart : ∀ f ∈ part, f ∈ before ++ after) :
        ((part.map fun f => ((decode? f.1).getD [], f.2)).filter fun f => f.1 == name) = [] := by
      rw [List.filter_eq_nil_iff]
      rintro _ hmem
      obtain ⟨f, hf, rfl⟩ := List.mem_map.mp hmem
      obtain ⟨other, hother'⟩ := Option.isSome_iff_exists.mp
        (decodes f (by have := hpart f hf; simp only [List.mem_append, List.mem_cons] at this ⊢; tauto))
      have hne := hother f (hpart f hf)
      rw [hother'] at hne
      simpa [hother'] using hne
    rw [List.map_append, List.map_cons, List.filter_append,
      hnone fun f hf => List.mem_append_left _ hf, List.filter_cons_of_pos (by simp [hkey]),
      hnone fun f hf => List.mem_append_right _ hf, hkey]
    rfl
  rw [record?, hnamed]
  refine mapM_eq_some_of_forall₂ (h.imp fun name v hv => ?_)
  simp only [hfilter hv]

/-- Two fields are read in either order. -/
theorem record?_pair {a b : List Char} (h : a ≠ b) (u v : Value) :
    record? [a, b] (object [(a.map Char.toNat, u), (b.map Char.toNat, v)]) = some [u, v] ∧
      record? [a, b] (object [(b.map Char.toNat, v), (a.map Char.toNat, u)]) = some [u, v] := by
  constructor
  · refine record?_object (by simp [decode?_map_toNat]) (.cons ?_ (.cons ?_ .nil))
    · exact ⟨[], _, _, rfl, decode?_map_toNat a, by simp [decode?_map_toNat, h.symm]⟩
    · exact ⟨[_], _, [], rfl, decode?_map_toNat b, by simp [decode?_map_toNat, h]⟩
  · refine record?_object (by simp [decode?_map_toNat]) (.cons ?_ (.cons ?_ .nil))
    · exact ⟨[_], _, [], rfl, decode?_map_toNat a, by simp [decode?_map_toNat, h.symm]⟩
    · exact ⟨[], _, _, rfl, decode?_map_toNat b, by simp [decode?_map_toNat, h]⟩

end Value

end Bimatrix.Json
