import Mathlib.Tactic
import Bimatrix.Proofs.Scalar
import Bimatrix.Proofs.Tableau.Basis

/-! # The minimum ratio test in exact arithmetic

The row that leaves has an entry above the cutoff, no other such row has a smaller ratio, and of
several rows with that ratio it is the first.  No row leaves only when no entry is above the cutoff.
-/
namespace Bimatrix.Tableau

variable {size labels : Nat}

def ratio (t : Tableau ℚ size labels) (q : Fin labels) (i : Fin size) : ℚ :=
  t.level i / t.entries i q

theorem compareRatio_of_le {t : Tableau ℚ size labels} {q : Fin labels} {i : Fin size}
    (h : t.entries i q ≤ Scalar.cutoff) (best : Option (Fin size × ℚ)) :
    t.compareRatio q best i = best :=
  if_pos h

theorem compareRatio_none {t : Tableau ℚ size labels} {q : Fin labels} {i : Fin size}
    (h : Scalar.cutoff < t.entries i q) : t.compareRatio q none i = some (i, t.ratio q i) :=
  if_neg (not_le.mpr h)

theorem compareRatio_some {t : Tableau ℚ size labels} {q : Fin labels} {i : Fin size}
    (h : Scalar.cutoff < t.entries i q) (r : Fin size) (least : ℚ) :
    t.compareRatio q (some (r, least)) i =
      if least ≤ t.ratio q i then some (r, least) else some (i, t.ratio q i) :=
  if_neg (not_le.mpr h)

/-- The rows of a list with an entry above the cutoff, compared with the row kept so far. -/
structure IsLeast (t : Tableau ℚ size labels) (q : Fin labels) (rows : List (Fin size))
    (r : Fin size) : Prop where
  mem : r ∈ rows
  qualifies : Scalar.cutoff < t.entries r q
  ratio_le : ∀ i ∈ rows, Scalar.cutoff < t.entries i q → t.ratio q r ≤ t.ratio q i
  first : ∀ i ∈ rows, Scalar.cutoff < t.entries i q → t.ratio q i = t.ratio q r → r ≤ i

theorem IsLeast.pass {t : Tableau ℚ size labels} {q : Fin labels} {rows : List (Fin size)}
    {r i : Fin size} (h : t.IsLeast q rows r) (hri : r < i)
    (hi : Scalar.cutoff < t.entries i q → t.ratio q r ≤ t.ratio q i) :
    t.IsLeast q (rows ++ [i]) r where
  mem := List.mem_append_left _ h.mem
  qualifies := h.qualifies
  ratio_le j hj hq := by
    rcases List.mem_append.mp hj with hj | hj
    · exact h.ratio_le j hj hq
    · obtain rfl := List.mem_singleton.mp hj
      exact hi hq
  first j hj hq heq := by
    rcases List.mem_append.mp hj with hj | hj
    · exact h.first j hj hq heq
    · obtain rfl := List.mem_singleton.mp hj
      exact hri.le

theorem IsLeast.replace {t : Tableau ℚ size labels} {q : Fin labels} {rows : List (Fin size)}
    {i : Fin size} (hi : Scalar.cutoff < t.entries i q)
    (hlt : ∀ j ∈ rows, Scalar.cutoff < t.entries j q → t.ratio q i < t.ratio q j) :
    t.IsLeast q (rows ++ [i]) i where
  mem := by simp
  qualifies := hi
  ratio_le j hj hq := by
    rcases List.mem_append.mp hj with hj | hj
    · exact (hlt j hj hq).le
    · rw [List.mem_singleton.mp hj]
  first j hj hq heq := by
    rcases List.mem_append.mp hj with hj | hj
    · exact absurd heq (hlt j hj hq).ne'
    · rw [List.mem_singleton.mp hj]

/-- What the fold has found after the rows of an increasing list. -/
theorem foldl_compareRatio (t : Tableau ℚ size labels) (q : Fin labels) (rows : List (Fin size))
    (hrows : rows.Pairwise (· < ·)) :
    (rows.foldl (t.compareRatio q) none = none ∧ ∀ i ∈ rows, t.entries i q ≤ Scalar.cutoff) ∨
      ∃ r, rows.foldl (t.compareRatio q) none = some (r, t.ratio q r) ∧ t.IsLeast q rows r := by
  induction rows using List.reverseRecOn with
  | nil => exact .inl ⟨rfl, by simp⟩
  | append_singleton rows i ih =>
    obtain ⟨hpre, -, hlt⟩ := List.pairwise_append.mp hrows
    replace hlt : ∀ j ∈ rows, j < i := fun j hj => hlt j hj i (by simp)
    rw [List.foldl_append, List.foldl_cons, List.foldl_nil]
    rcases le_or_gt (t.entries i q) Scalar.cutoff with hi | hi
    · rw [compareRatio_of_le hi]
      rcases ih hpre with ⟨hnone, hle⟩ | ⟨r, hsome, hr⟩
      · refine .inl ⟨hnone, ?_⟩
        intro j hj
        rcases List.mem_append.mp hj with hj | hj
        · exact hle j hj
        · rwa [List.mem_singleton.mp hj]
      · exact .inr ⟨r, hsome, hr.pass (hlt r hr.mem) fun hq => absurd hi (not_le.mpr hq)⟩
    · rcases ih hpre with ⟨hnone, hle⟩ | ⟨r, hsome, hr⟩
      · rw [hnone, compareRatio_none hi]
        exact .inr ⟨i, rfl, .replace hi fun j hj hq => absurd (hle j hj) (not_le.mpr hq)⟩
      · rw [hsome, compareRatio_some hi]
        split_ifs with hle
        · exact .inr ⟨r, rfl, hr.pass (hlt r hr.mem) fun _ => hle⟩
        · refine .inr ⟨i, rfl, .replace hi ?_⟩
          intro j hj hq
          exact (not_le.mp hle).trans_le (hr.ratio_le j hj hq)

theorem leavingRow?_eq_none_iff {t : Tableau ℚ size labels} {q : Fin labels} :
    t.leavingRow? q = none ↔ ∀ i, t.entries i q ≤ Scalar.cutoff := by
  rw [leavingRow?, Option.map_eq_none_iff]
  rcases t.foldl_compareRatio q _ (List.pairwise_lt_finRange size) with
    ⟨hnone, hle⟩ | ⟨r, hsome, hr⟩
  · simp only [hnone, true_iff]
    exact fun i => hle i (List.mem_finRange i)
  · simp only [hsome, reduceCtorEq, false_iff, not_forall, not_le]
    exact ⟨r, hr.qualifies⟩

theorem isLeast_of_leavingRow? {t : Tableau ℚ size labels} {q : Fin labels} {r : Fin size}
    (h : t.leavingRow? q = some r) : t.IsLeast q (List.finRange size) r := by
  rw [leavingRow?, Option.map_eq_some_iff] at h
  obtain ⟨x, hx, rfl⟩ := h
  rcases t.foldl_compareRatio q _ (List.pairwise_lt_finRange size) with
    ⟨hnone, -⟩ | ⟨r, hsome, hr⟩
  · simp [hnone] at hx
  · rw [hsome, Option.some.injEq] at hx
    subst hx
    exact hr

/-- A row that can leave, and no row that can has a smaller ratio. -/
structure Attains (t : Tableau ℚ size labels) (q : Fin labels) (r : Fin size) : Prop where
  qualifies : Scalar.cutoff < t.entries r q
  ratio_le : ∀ i, Scalar.cutoff < t.entries i q → t.ratio q r ≤ t.ratio q i

theorem attains_of_leavingRow? {t : Tableau ℚ size labels} {q : Fin labels} {r : Fin size}
    (h : t.leavingRow? q = some r) : t.Attains q r where
  qualifies := (isLeast_of_leavingRow? h).qualifies
  ratio_le i := (isLeast_of_leavingRow? h).ratio_le i (List.mem_finRange i)

/-- Where no other row attains the least ratio the tie rule has no say. -/
theorem leavingRow?_eq_some_of_unique {t : Tableau ℚ size labels} {q : Fin labels} {r : Fin size}
    (hr : t.Attains q r) (hunique : ∀ s, t.Attains q s → s = r) : t.leavingRow? q = some r := by
  cases hs : t.leavingRow? q with
  | none => exact absurd hr.qualifies (not_lt.mpr (leavingRow?_eq_none_iff.mp hs r))
  | some s => rw [hunique s (attains_of_leavingRow? hs)]

theorem entry_pos_of_leavingRow? {t : Tableau ℚ size labels} {q : Fin labels} {r : Fin size}
    (h : t.leavingRow? q = some r) : 0 < t.entries r q :=
  Scalar.cutoff_pos.trans (isLeast_of_leavingRow? h).qualifies

/-- The least ratio is no more than the values of the rows above the cutoff can bear. -/
theorem mul_ratio_le_level {t : Tableau ℚ size labels} {q : Fin labels} {r i : Fin size}
    (h : t.leavingRow? q = some r) (hi : Scalar.cutoff < t.entries i q) :
    t.entries i q * t.ratio q r ≤ t.level i := by
  have hpos : 0 < t.entries i q := Scalar.cutoff_pos.trans hi
  have hratio := (isLeast_of_leavingRow? h).ratio_le i (List.mem_finRange i) hi
  calc t.entries i q * t.ratio q r ≤ t.entries i q * t.ratio q i :=
        mul_le_mul_of_nonneg_left hratio hpos.le
    _ = t.level i := mul_div_cancel₀ _ hpos.ne'

/-- A pivot on a label in range that is not basic fails only when no row qualifies. -/
theorem pivot_eq_error_iff {t : Tableau ℚ size labels} {q : Fin labels}
    (hq : t.isBasic q.val = false) {f : Fault} :
    t.pivot q.val = .error f ↔ f = .degeneratePivot q.val ∧ t.leavingRow? q = none := by
  cases hr : t.leavingRow? q with
  | none => simp [pivot, hq, hr, eq_comm]
  | some r =>
    obtain ⟨x, hx⟩ := exists_pivot_of_leavingRow hq hr
    simp [hx]

/-- The label of the first row of least ratio among those with an entry above the cutoff leaves the
basis, and the pivot fails exactly when there is no such row. -/
theorem minimum_ratio_of_pivot (t : Tableau ℚ size labels) {q : Fin labels}
    (hq : t.isBasic q.val = false) :
    (∀ f, t.pivot q.val = .error f ↔
      f = .degeneratePivot q.val ∧ ∀ i, t.entries i q ≤ Scalar.cutoff) ∧
    ((∃ i, Scalar.cutoff < t.entries i q) → ∃ x, t.pivot q.val = .ok x ∧
      x.leaving = t.label x.row ∧ x.tableau.label = Function.update t.label x.row q ∧
      Scalar.cutoff < t.entries x.row q ∧
      ∀ i ≠ x.row, Scalar.cutoff < t.entries i q →
        t.ratio q x.row ≤ t.ratio q i ∧ (t.ratio q i = t.ratio q x.row → x.row < i)) := by
  constructor
  · intro f
    rw [pivot_eq_error_iff hq, leavingRow?_eq_none_iff]
  · rintro ⟨k, hk⟩
    cases hr : t.leavingRow? q with
    | none => exact absurd hk (not_lt.mpr (leavingRow?_eq_none_iff.mp hr k))
    | some r =>
      obtain ⟨x, hx⟩ := exists_pivot_of_leavingRow hq hr
      obtain ⟨_, -, hrow, -⟩ := pivot_eq_ok_iff.mp hx
      have hleast := isLeast_of_leavingRow? hrow
      obtain ⟨hleaving, hlabel⟩ := pivot_label hx
      refine ⟨x, hx, hleaving, hlabel, hleast.qualifies, fun i hne hi => ⟨?_, fun heq => ?_⟩⟩
      · exact hleast.ratio_le i (List.mem_finRange i) hi
      · exact (hleast.first i (List.mem_finRange i) hi heq).lt_of_ne hne.symm

/-- Label 5 meets a negative entry, one equal to the cutoff and three above it, of which the last
two tie with a negative ratio; label 6 meets no entry above the cutoff. -/
def tiedBelowZero : Tableau ℚ 5 7 :=
  ⟨#v[⟨0, #v[1, 0, 0, 0, 0, -1, -1], 3⟩, ⟨1, #v[0, 1, 0, 0, 0, 1 / 1000000000000, 0], -1⟩,
    ⟨2, #v[0, 0, 1, 0, 0, 2, 1 / 1000000000000], 2⟩, ⟨3, #v[0, 0, 0, 1, 0, 4, 0], -2⟩,
    ⟨4, #v[0, 0, 0, 0, 1, 2, -2], -1⟩]⟩

theorem minimum_ratio_of_pivot_tiedBelowZero :
    tiedBelowZero.isBasic 5 = false ∧ Scalar.cutoff < tiedBelowZero.entries 2 5 ∧
      tiedBelowZero.pivot 5 = .ok ⟨3, 3, tiedBelowZero.exchange 3 5⟩ ∧
      tiedBelowZero.ratio 5 3 = -1 / 2 ∧ tiedBelowZero.ratio 5 4 = -1 / 2 ∧
      (∀ i ≠ 3, Scalar.cutoff < tiedBelowZero.entries i 5 →
        tiedBelowZero.ratio 5 3 ≤ tiedBelowZero.ratio 5 i ∧
          (tiedBelowZero.ratio 5 i = tiedBelowZero.ratio 5 3 → 3 < i)) ∧
      tiedBelowZero.isBasic 6 = false ∧ (∀ i, tiedBelowZero.entries i 6 ≤ Scalar.cutoff) ∧
      tiedBelowZero.pivot 6 = .error (.degeneratePivot 6) := by
  have hfive : tiedBelowZero.isBasic 5 = false := by decide +kernel
  have hsix : tiedBelowZero.isBasic 6 = false := by decide +kernel
  have hcutoff : Scalar.cutoff < tiedBelowZero.entries 2 5 := by decide +kernel
  have hnone : ∀ i, tiedBelowZero.entries i 6 ≤ Scalar.cutoff := by decide +kernel
  have hpivot : tiedBelowZero.pivot 5 = .ok ⟨3, 3, tiedBelowZero.exchange 3 5⟩ :=
    pivot_eq_ok_iff.mpr ⟨by decide, hfive, by decide +kernel, rfl⟩
  obtain ⟨x, hx, -, -, -, hleast⟩ :=
    (tiedBelowZero.minimum_ratio_of_pivot (q := 5) hfive).2 ⟨2, hcutoff⟩
  obtain rfl := Except.ok.inj (hpivot.symm.trans hx)
  have hrefused : tiedBelowZero.pivot 6 = .error (.degeneratePivot 6) :=
    ((tiedBelowZero.minimum_ratio_of_pivot (q := 6) hsix).1 _).mpr ⟨rfl, hnone⟩
  exact ⟨hfive, hcutoff, hpivot, by decide +kernel, by decide +kernel, hleast, hsix, hnone,
    hrefused⟩

end Bimatrix.Tableau
