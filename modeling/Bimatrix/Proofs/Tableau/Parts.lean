import Mathlib.Data.List.Nodup
import Mathlib.Tactic
import Bimatrix.Proofs.Tableau.Basis

/-! # Tableaus from their parts

The checks accept one label and one value for each row when the labels are in range and all
different.  The tableau that they let through has exactly the parts it was made from.
-/
namespace Bimatrix.Tableau

variable {α : Type} {size labels : ℕ}

theorem outOfRange?_eq_none_iff {basis : List ℕ} :
    outOfRange? labels basis = none ↔ ∀ l ∈ basis, l < labels := by
  simp [outOfRange?]

theorem firstRepeat?_eq_none_iff {seen ls : List ℕ} :
    firstRepeat? seen ls = none ↔ ls.Nodup ∧ ∀ l ∈ ls, l ∉ seen := by
  induction ls generalizing seen with
  | nil => simp [firstRepeat?]
  | cons l ls ih =>
    unfold firstRepeat?
    split_ifs with hl
    · simp [hl]
    · rw [ih]
      simp only [List.nodup_cons, List.mem_cons, not_or, forall_eq_or_imp]
      constructor
      · rintro ⟨hnodup, hfresh⟩
        exact ⟨⟨fun hmem => (hfresh l hmem).1 rfl, hnodup⟩, hl, fun k hk => (hfresh k hk).2⟩
      · rintro ⟨⟨hnotMem, hnodup⟩, -, hfresh⟩
        refine ⟨hnodup, fun k hk => ⟨?_, hfresh k hk⟩⟩
        rintro rfl
        exact hnotMem hk

/-- A tableau is given by its labels, its coefficients and its values. -/
theorem ext_parts {t u : Tableau α size labels} (hlabel : t.label = u.label)
    (hentries : t.entries = u.entries) (hlevel : t.level = u.level) : t = u := by
  have hrow (i : Fin size) : t.rows.get i = u.rows.get i := by
    have hcoefficients : (t.rows.get i).coefficients = (u.rows.get i).coefficients := by
      ext j hj
      exact congrFun (congrFun hentries i) ⟨j, hj⟩
    cases hleft : t.rows.get i
    cases hright : u.rows.get i
    simp only [Row.mk.injEq]
    have hlabel := congrFun hlabel i
    have hlevel := congrFun hlevel i
    simp only [label, level, hleft, hright] at hlabel hlevel hcoefficients
    exact ⟨hlabel, hcoefficients, hlevel⟩
  obtain ⟨rows⟩ := t
  obtain ⟨rows'⟩ := u
  congr 1
  ext i hi
  exact hrow ⟨i, hi⟩

theorem ofFn_get_cast {β : Type} {l : List β} (h : l.length = size) :
    List.ofFn (fun i : Fin size => l.get (i.cast h.symm)) = l := by
  subst h
  exact List.ofFn_get l

/-- The parts that a tableau was made from are those it has. -/
theorem parts_of_ofParts? {coefficients : Fin size → Fin labels → α} {basis : List ℕ}
    {values : List α} {t : Tableau α size labels}
    (h : ofParts? coefficients basis values = .ok t) :
    basis = List.ofFn (fun i => (t.label i).val) ∧ values = List.ofFn t.level ∧
      t.entries = coefficients ∧ Function.Injective t.label := by
  unfold ofParts? at h
  split at h
  next hlength =>
    split at h
    next => cases h
    next hrange =>
      split at h
      next => cases h
      next hnone =>
        obtain rfl := Except.ok.inj h
        have hbasis := ofFn_get_cast hlength.1
        have hvalues := ofFn_get_cast hlength.2
        refine ⟨hbasis.symm.trans (congrArg List.ofFn ?_),
          hvalues.symm.trans (congrArg List.ofFn ?_), ?_, ?_⟩
        · funext i
          simp [label]
        · funext i
          simp [level]
        · funext i j
          simp [entries]
        · have hnodup := (firstRepeat?_eq_none_iff.mp hnone).1
          rw [← hbasis, List.nodup_ofFn] at hnodup
          intro i j hij
          apply hnodup
          simpa [label] using hij
  next => cases h

/-- The parts of a tableau whose labels are all different make it again. -/
theorem ofParts?_parts {t : Tableau α size labels} (h : Function.Injective t.label) :
    ofParts? t.entries (List.ofFn fun i => (t.label i).val) (List.ofFn t.level) = .ok t := by
  have hlength : (List.ofFn fun i => (t.label i).val).length = size ∧
      (List.ofFn t.level).length = size := ⟨List.length_ofFn, List.length_ofFn⟩
  have hrange : outOfRange? labels (List.ofFn fun i => (t.label i).val) = none := by
    rw [outOfRange?_eq_none_iff]
    intro l hl
    obtain ⟨i, rfl⟩ := List.mem_ofFn.mp hl
    exact (t.label i).isLt
  have hnone : firstRepeat? [] (List.ofFn fun i => (t.label i).val) = none := by
    rw [firstRepeat?_eq_none_iff, List.nodup_ofFn]
    exact ⟨Fin.val_injective.comp h, by simp⟩
  unfold ofParts?
  rw [dif_pos hlength]
  split
  next hsome => simp [hrange] at hsome
  next =>
    rw [hnone]
    refine congrArg Except.ok (ext_parts ?_ ?_ ?_)
    · funext i
      simp only [label, get_ofFn, List.get_ofFn]
      rfl
    · funext i j
      simp [entries]
    · funext i
      simp [level]

theorem ofParts?_eq_ok_iff {coefficients : Fin size → Fin labels → α} {basis : List ℕ}
    {values : List α} {t : Tableau α size labels} :
    ofParts? coefficients basis values = .ok t ↔
      basis = List.ofFn (fun i => (t.label i).val) ∧ values = List.ofFn t.level ∧
        t.entries = coefficients ∧ Function.Injective t.label := by
  constructor
  · exact parts_of_ofParts?
  · rintro ⟨rfl, rfl, rfl, hinj⟩
    exact ofParts?_parts hinj

end Bimatrix.Tableau
