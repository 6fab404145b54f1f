import Mathlib.Tactic
import Bimatrix.Proofs.Tableau.Parts
import Bimatrix.Proofs.Tableau.Runs

/-! # Pivots in place

A pivot can overwrite the rows of its tableau one after another, since all of them need only the new
pivot row and their own old content.  Every check comes before the first row is written, so a pivot
that fails has written nothing.  A run of pivots, whether they succeed or fail, keeps the labels of
the basis different, and so every value where it is looked up.
-/
namespace Bimatrix.Tableau

variable {α : Type} {size labels : ℕ}

def write (t : Tableau α size labels) (i : Fin size) (row : Row α labels) :
    Tableau α size labels :=
  ⟨t.rows.set i.val row i.isLt⟩

theorem write_get (t : Tableau α size labels) (i k : Fin size) (row : Row α labels) :
    (t.write i row).rows.get k = if k = i then row else t.rows.get k :=
  get_set t.rows i k row

theorem ext_rows {t u : Tableau α size labels} (h : ∀ i, t.rows.get i = u.rows.get i) : t = u := by
  obtain ⟨rows⟩ := t
  obtain ⟨rows'⟩ := u
  congr 1
  ext i hi
  exact h ⟨i, hi⟩

def basisLabels (t : Tableau α size labels) : List ℕ := t.basis.toList.map Fin.val

@[simp] theorem basis_get (t : Tableau α size labels) (i : Fin size) :
    t.basis.get i = t.label i := get_map _ t.rows i

@[simp] theorem basicValues_get (t : Tableau α size labels) (i : Fin size) :
    t.basicValues.get i = t.level i := get_map _ t.rows i

theorem basisLabels_eq (t : Tableau α size labels) :
    t.basisLabels = List.ofFn fun i => (t.label i).val := by
  apply List.ext_getElem
  · simp [basisLabels]
  · intro i hi hi'
    simp [basisLabels, basis, label, get_eq_getElem]

theorem basicValues_toList (t : Tableau α size labels) :
    t.basicValues.toList = List.ofFn t.level := by
  apply List.ext_getElem
  · simp
  · intro i hi hi'
    simp [basicValues, level, get_eq_getElem]

variable [Scalar α]

/-- Clears the entry for the entering label in one row; the pivot row is passed over. -/
def clear (pivot : Row α labels) (r : Fin size) (q : Fin labels) (t : Tableau α size labels)
    (i : Fin size) : Tableau α size labels :=
  if i = r then t else t.write i ((t.rows.get i).eliminate pivot q)

theorem clear_get (pivot : Row α labels) (r : Fin size) (q : Fin labels)
    (t : Tableau α size labels) (i k : Fin size) :
    (t.clear pivot r q i).rows.get k =
      if k = i ∧ k ≠ r then (t.rows.get k).eliminate pivot q else t.rows.get k := by
  unfold clear
  by_cases hi : i = r
  · rw [if_pos hi, if_neg]
    rintro ⟨rfl, hk⟩
    exact hk hi
  · rw [if_neg hi, write_get]
    by_cases hk : k = i
    · rw [if_pos hk, if_pos ⟨hk, hk ▸ hi⟩, hk]
    · rw [if_neg hk, if_neg fun h => hk h.1]

/-- Rows that have been cleared are not looked at again. -/
theorem foldl_clear_get (pivot : Row α labels) (r : Fin size) (q : Fin labels)
    {is : List (Fin size)} (his : is.Nodup) (t : Tableau α size labels) (k : Fin size) :
    (is.foldl (clear pivot r q) t).rows.get k =
      if k ∈ is ∧ k ≠ r then (t.rows.get k).eliminate pivot q else t.rows.get k := by
  induction is generalizing t with
  | nil => simp
  | cons i is ih =>
    obtain ⟨hi, his⟩ := List.nodup_cons.mp his
    rw [List.foldl_cons, ih his, clear_get]
    by_cases hk : k = i
    · subst hk
      simp [hi]
    · simp [hk]

theorem foldl_clear_eq_exchange (t : Tableau α size labels) (r : Fin size) (q : Fin labels) :
    (List.finRange size).foldl (clear ((t.rows.get r).normalize q) r q)
      (t.write r ((t.rows.get r).normalize q)) = t.exchange r q := by
  apply ext_rows
  intro k
  rw [foldl_clear_get _ _ _ (List.nodup_finRange size), write_get, exchange_get]
  by_cases hk : k = r
  · simp [hk]
  · simp [hk, List.mem_finRange]

def exchangeInPlace (pivot : Row α labels) (r : Fin size) (q : Fin labels) :
    StateM (Tableau α size labels) Unit := do
  modify fun t => t.write r pivot
  for i in List.finRange size do
    modify fun t => t.clear pivot r q i

/-- Brings a label into the basis of the tableau at hand and gives the label that leaves. -/
def pivotInPlace (q : ℕ) : ExceptT Fault (StateM (Tableau α size labels)) (Fin labels) := do
  let t ← get
  if h : q < labels then
    if t.isBasic q then throw (.invalid (.alreadyBasic q))
    let some r := t.leavingRow? ⟨q, h⟩ | throw (.degeneratePivot q)
    exchangeInPlace ((t.rows.get r).normalize ⟨q, h⟩) r ⟨q, h⟩
    return (t.rows.get r).label
  else throw (.invalid (.enteringOutOfRange q labels))

/-- What the command answers on a tableau, and the tableau that it leaves behind. -/
def tryPivot (t : Tableau α size labels) (q : ℕ) :
    Except Fault (Fin labels) × Tableau α size labels :=
  (pivotInPlace q).run.run t

def tryPivots (t : Tableau α size labels) (qs : List ℕ) : Tableau α size labels :=
  qs.foldl (fun u q => (u.tryPivot q).2) t

theorem run_forIn_modify {σ ι : Type} (f : σ → ι → σ) (is : List ι) (s : σ) :
    (forIn (m := StateM σ) is PUnit.unit fun i _ => do
      modify fun s => f s i
      pure (ForInStep.yield PUnit.unit)).run s = (PUnit.unit, is.foldl f s) := by
  induction is generalizing s with
  | nil => rfl
  | cons i is ih =>
    rw [List.forIn_cons, List.foldl_cons, ← ih]
    rfl

theorem run_exchangeInPlace (t : Tableau α size labels) (r : Fin size) (q : Fin labels) :
    (exchangeInPlace ((t.rows.get r).normalize q) r q).run t = ((), t.exchange r q) := by
  rw [← foldl_clear_eq_exchange, ← run_forIn_modify]
  rfl

theorem run_get_bind {ε σ β : Type} (f : σ → ExceptT ε (StateM σ) β) (s : σ) :
    (get >>= f).run.run s = (f s).run.run s := rfl

/-- The command does what the pivot does, and nothing when the pivot fails. -/
theorem tryPivot_eq (t : Tableau α size labels) (q : ℕ) :
    t.tryPivot q =
      match t.pivot q with
      | .ok x => (.ok x.leaving, x.tableau)
      | .error f => (.error f, t) := by
  unfold tryPivot pivotInPlace pivot
  rw [run_get_bind]
  by_cases h : q < labels
  · rw [dif_pos h, dif_pos h]
    cases hb : t.isBasic q with
    | true => rfl
    | false =>
      cases hr : t.leavingRow? ⟨q, h⟩ with
      | none => rfl
      | some r =>
        exact congrArg (fun s => (Except.ok (t.rows.get r).label, s.2))
          (run_exchangeInPlace t r ⟨q, h⟩)
  · rw [dif_neg h, dif_neg h]
    rfl

theorem tryPivot_ok_iff {t u : Tableau α size labels} {q : ℕ} {leaving : Fin labels} :
    t.tryPivot q = (.ok leaving, u) ↔
      ∃ x, t.pivot q = .ok x ∧ leaving = x.leaving ∧ u = x.tableau := by
  rw [tryPivot_eq]
  cases t.pivot q <;> simp [eq_comm]

theorem tryPivot_error_iff {t u : Tableau α size labels} {q : ℕ} {f : Fault} :
    t.tryPivot q = (.error f, u) ↔ t.pivot q = .error f ∧ u = t := by
  rw [tryPivot_eq]
  cases t.pivot q <;> simp [eq_comm]

/-- Whatever has been tried, only the pivots that succeeded count. -/
theorem pivots_tryPivots (t : Tableau α size labels) (qs : List ℕ) : t.Pivots (t.tryPivots qs) := by
  -- on the last label tried
  induction qs using List.reverseRecOn with
  | nil => exact .refl
  | append_singleton qs q ih =>
    rw [tryPivots, List.foldl_append, List.foldl_cons, List.foldl_nil, tryPivot_eq]
    cases hx : (t.tryPivots qs).pivot q with
    | error f =>
      rw [tryPivots] at hx
      rw [hx]
      exact ih
    | ok x =>
      have hstep := Pivots.step ih hx
      rw [tryPivots] at hx
      rw [hx]
      exact hstep

theorem label_injective_pivot {t : Tableau α size labels} (hinj : Function.Injective t.label)
    {q : ℕ} {x : Exchange α size labels} (hx : t.pivot q = .ok x) :
    Function.Injective x.tableau.label := by
  obtain ⟨hq, hbasic, -⟩ := pivot_eq_ok_iff.mp hx
  obtain ⟨-, hlabel⟩ := pivot_label (q := ⟨q, hq⟩) hx
  have hnew (i : Fin size) : t.label i ≠ ⟨q, hq⟩ :=
    fun h => isBasic_eq_false_iff.mp hbasic i (congrArg Fin.val h)
  rw [hlabel]
  intro i k hik
  rw [Function.update_apply, Function.update_apply] at hik
  split_ifs at hik with hi hk hk
  · exact hi.trans hk.symm
  · exact absurd hik.symm (hnew k)
  · exact absurd hik (hnew i)
  · exact hinj hik

theorem label_injective_of_pivots {t u : Tableau α size labels} (hinj : Function.Injective t.label)
    (h : t.Pivots u) : Function.Injective u.label := by
  induction h with
  | refl => exact hinj
  | step _ hx ih => exact label_injective_pivot ih hx

/-- The labels of the basis are in range and different, and the values of all labels are those of
the rows, with zero for the labels that are not basic. -/
structure Consistent (t : Tableau α size labels) : Prop where
  length_eq : t.basisLabels.length = size
  lt : ∀ l ∈ t.basisLabels, l < labels
  nodup : t.basisLabels.Nodup
  value_basic : ∀ i, t.values.get (t.basis.get i) = t.basicValues.get i
  value_other : ∀ l : Fin labels, l.val ∉ t.basisLabels → t.values.get l = 0

section Reading

variable (t : Tableau α size labels)

@[simp] theorem values_get (l : Fin labels) : t.values.get l = t.value l := get_ofFn _ l

theorem values?_eq (h : Table.storable labels 1 = true) : t.values? = .ok t.values := by
  unfold values? Table.checkShape
  rw [if_pos h]
  rfl

variable {t}

theorem consistent_of_label_injective (h : Function.Injective t.label) : t.Consistent where
  length_eq := by rw [basisLabels_eq, List.length_ofFn]
  lt l hl := by
    rw [basisLabels_eq, List.mem_ofFn] at hl
    obtain ⟨i, rfl⟩ := hl
    exact (t.label i).isLt
  nodup := by
    rw [basisLabels_eq, List.nodup_ofFn]
    exact Fin.val_injective.comp h
  value_basic i := by
    rw [basis_get, values_get, basicValues_get, value_of_basic h]
  value_other l hl := by
    rw [values_get, value_of_not_basic]
    rintro ⟨i, rfl⟩
    apply hl
    rw [basisLabels_eq, List.mem_ofFn]
    exact ⟨i, rfl⟩

end Reading

/-- The basis changes in one row, from the label that leaves to the one that enters. -/
theorem basis_pivot {t : Tableau α size labels} {q : ℕ} {x : Exchange α size labels}
    (hx : t.pivot q = .ok x) : ∃ hq : q < labels, t.basis.get x.row = x.leaving ∧
      x.leaving.val ≠ q ∧ x.tableau.basis = t.basis.set x.row.val ⟨q, hq⟩ x.row.isLt := by
  obtain ⟨hq, -⟩ := pivot_eq_ok_iff.mp hx
  obtain ⟨hleaving, hlabel⟩ := pivot_label (q := ⟨q, hq⟩) hx
  have hne := leaving_ne (q := ⟨q, hq⟩) hx
  refine ⟨hq, by rw [basis_get, hleaving], fun h => hne (Fin.ext h), ?_⟩
  ext i hi
  have hget := basis_get x.tableau ⟨i, hi⟩
  rw [hlabel, Function.update_apply, ← basis_get, ← get_set, get_eq_getElem, get_eq_getElem] at hget
  rw [hget]

theorem exists_ofParts?_iff {coefficients : Fin size → Fin labels → α} {basis : List ℕ}
    {values : List α} : (∃ t, ofParts? coefficients basis values = .ok t) ↔
      basis.length = size ∧ values.length = size ∧ basis.Nodup ∧ ∀ l ∈ basis, l < labels := by
  constructor
  · rintro ⟨t, h⟩
    obtain ⟨rfl, rfl, -, hinj⟩ := parts_of_ofParts? h
    have hconsistent := consistent_of_label_injective hinj
    rw [← basisLabels_eq]
    exact ⟨hconsistent.length_eq, List.length_ofFn, hconsistent.nodup, hconsistent.lt⟩
  · rintro ⟨hbasis, hvalues, hnodup, hlt⟩
    have hrange := outOfRange?_eq_none_iff.mpr hlt
    have hrepeat : firstRepeat? [] basis = none :=
      firstRepeat?_eq_none_iff.mpr ⟨hnodup, by simp⟩
    unfold ofParts?
    rw [dif_pos ⟨hbasis, hvalues⟩]
    split
    next hsome => simp [hrange] at hsome
    next =>
      rw [hrepeat]
      exact ⟨_, rfl⟩

/-- A tableau can be made from its parts exactly when every row has a label and a value and the
labels are in range and different.  Whatever pivots are then tried on it, and whatever the
arithmetic, its basis and its values stay consistent.  A pivot that succeeds replaces one label of
the basis, and one that fails changes nothing. -/
theorem consistent_tryPivots (coefficients : Fin size → Fin labels → α) (basis : List ℕ)
    (values : List α) :
    ((∃ t, ofParts? coefficients basis values = .ok t) ↔
      basis.length = size ∧ values.length = size ∧ basis.Nodup ∧ ∀ l ∈ basis, l < labels) ∧
    (∀ t, ofParts? coefficients basis values = .ok t →
      t.entries = coefficients ∧ t.basisLabels = basis ∧ t.basicValues.toList = values ∧
      ∀ qs : List ℕ, (t.tryPivots qs).Consistent ∧
        (t.tryPivots qs).basisLabels.length = basis.length ∧
        (Table.storable labels 1 = true →
          (t.tryPivots qs).values? = .ok (t.tryPivots qs).values)) ∧
    (∀ (t u : Tableau α size labels) (q : ℕ) (leaving : Fin labels),
      t.tryPivot q = (.ok leaving, u) → ∃ (hq : q < labels) (r : Fin size),
        t.basis.get r = leaving ∧ leaving.val ≠ q ∧
        u.basis = t.basis.set r.val ⟨q, hq⟩ r.isLt) ∧
    ∀ (t u : Tableau α size labels) (q : ℕ) (f : Fault), t.tryPivot q = (.error f, u) →
      u.basis = t.basis ∧ u.coefficients = t.coefficients ∧ u.basicValues = t.basicValues := by
  refine ⟨exists_ofParts?_iff, ?_, ?_, ?_⟩
  · intro t h
    obtain ⟨hbasis, hvalues, hentries, hinj⟩ := parts_of_ofParts? h
    rw [← basisLabels_eq] at hbasis
    rw [← basicValues_toList] at hvalues
    refine ⟨hentries, hbasis.symm, hvalues.symm, fun qs => ?_⟩
    have hconsistent := consistent_of_label_injective
      (label_injective_of_pivots hinj (t.pivots_tryPivots qs))
    refine ⟨hconsistent, ?_, values?_eq _⟩
    rw [hbasis, hconsistent.length_eq, (consistent_of_label_injective hinj).length_eq]
  · intro t u q leaving h
    obtain ⟨x, hx, rfl, rfl⟩ := tryPivot_ok_iff.mp h
    obtain ⟨hq, hleaving, hne, hset⟩ := basis_pivot hx
    exact ⟨hq, x.row, hleaving, hne, hset⟩
  · intro t u q f h
    obtain ⟨-, rfl⟩ := tryPivot_error_iff.mp h
    exact ⟨rfl, rfl, rfl⟩

/-- Of four pivots the third alone succeeds: the others ask for a label out of range or a basic
one. -/
theorem consistent_tryPivots_fourKinds :
    ofParts? fourKinds.entries [0, 1, 2, 3] [2, 1, 1, 0] = .ok fourKinds ∧
      (fourKinds.tryPivots [5, 0, 4, 4]).Consistent ∧
      (fourKinds.tryPivots [5, 0, 4, 4]).basisLabels = [4, 1, 2, 3] ∧
      (fourKinds.tryPivots [5, 0, 4, 4]).values = #v[0, 3, 1, 0, 2] ∧
      (fourKinds.tryPivots [5, 0, 4, 4]).values? =
        .ok (fourKinds.tryPivots [5, 0, 4, 4]).values ∧
      fourKinds.tryPivot 4 = (.ok 0, fourKinds.exchange 0 4) ∧
      (∃ (hq : 4 < 5) (r : Fin 4), fourKinds.basis.get r = 0 ∧ (0 : Fin 5).val ≠ 4 ∧
        (fourKinds.exchange 0 4).basis = fourKinds.basis.set r.val ⟨4, hq⟩ r.isLt) := by
  obtain ⟨-, hbuilt, hsuccess, -⟩ :=
    consistent_tryPivots fourKinds.entries [0, 1, 2, 3] [2, 1, 1, 0]
  have hparts : ofParts? fourKinds.entries [0, 1, 2, 3] [2, 1, 1, 0] = .ok fourKinds :=
    ofParts?_eq_ok_iff.mpr ⟨by decide +kernel, by decide +kernel, rfl, by decide +kernel⟩
  have hpivot : fourKinds.pivot 4 = .ok ⟨0, 0, fourKinds.exchange 0 4⟩ :=
    pivot_eq_ok_iff.mpr ⟨by decide, by decide +kernel, by decide +kernel, rfl⟩
  have htry : fourKinds.tryPivot 4 = (.ok 0, fourKinds.exchange 0 4) :=
    tryPivot_ok_iff.mpr ⟨_, hpivot, rfl, rfl⟩
  obtain ⟨-, -, -, hrun⟩ := hbuilt _ hparts
  obtain ⟨hconsistent, -, hstored⟩ := hrun [5, 0, 4, 4]
  exact ⟨hparts, hconsistent, by decide +kernel, by decide +kernel, hstored (by decide), htry,
    hsuccess _ _ _ _ htry⟩

end Bimatrix.Tableau
