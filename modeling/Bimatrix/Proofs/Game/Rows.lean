import Mathlib.Tactic
import Bimatrix.Game
import Bimatrix.Proofs.Table

/-! # From rows of numbers to games

Two lists of rows make a game exactly if both are rectangular, of one shape that is not empty, and
hold finite numbers only.  Otherwise the checks are made in that order, the row player's list before
the column player's, and the first that fails names the first place where it fails.
-/
namespace Bimatrix

namespace Table

variable {α β : Type} {n m : ℕ}

def Rectangular (rows : List (List α)) : Prop := ∀ row ∈ rows, row.length = width rows

instance (rows : List (List α)) : Decidable (Rectangular rows) :=
  inferInstanceAs (Decidable (∀ row ∈ rows, row.length = width rows))

def cell? (rows : List (List α)) (i j : ℕ) : Option α := rows[i]?.bind (·[j]?)

def Before (i j i' j' : ℕ) : Prop := i < i' ∨ i = i' ∧ j < j'

/-- The first row whose length differs from the first row's. -/
def FirstRagged (rows : List (List α)) (i : ℕ) (row : List α) : Prop :=
  rows[i]? = some row ∧ row.length ≠ width rows ∧
    ∀ k < i, ∀ earlier, rows[k]? = some earlier → earlier.length = width rows

theorem ragged?_eq_none_iff {rows : List (List α)} : ragged? rows = none ↔ Rectangular rows := by
  constructor
  · exact length_eq_width
  · intro h
    apply List.find?_eq_none.mpr
    rintro ⟨row, i⟩ hmem
    have hrow := List.mem_of_getElem? (List.mk_mem_zipIdx_iff_getElem?.mp hmem)
    simpa using h row hrow

theorem ragged?_eq_some_iff {rows : List (List α)} {row : List α} {i : ℕ} :
    ragged? rows = some (row, i) ↔ FirstRagged rows i row := by
  unfold ragged? FirstRagged
  rw [List.find?_eq_some_iff_getElem]
  constructor
  · rintro ⟨hne, k, hk, heq, hfirst⟩
    rw [List.getElem_zipIdx, Prod.mk.injEq, Nat.zero_add] at heq
    obtain ⟨rfl, rfl⟩ := heq
    refine ⟨List.getElem?_eq_getElem _, by simpa using hne, fun l hl earlier hearlier => ?_⟩
    obtain ⟨hlt, rfl⟩ := List.getElem?_eq_some_iff.mp hearlier
    simpa using hfirst l hl
  · rintro ⟨hrow, hne, hfirst⟩
    obtain ⟨hi, rfl⟩ := List.getElem?_eq_some_iff.mp hrow
    refine ⟨by simpa using hne, i, by simpa using hi, by simp, fun k hk => ?_⟩
    simpa using hfirst k hk _ (List.getElem?_eq_getElem (hk.trans hi))

structure Lists (t : Table α n m) (rows : List (List α)) : Prop where
  rectangular : Rectangular rows
  length_eq : rows.length = n
  width_eq : width rows = m
  cell (i : Fin n) (j : Fin m) : cell? rows i.val j.val = some (t.entry i j)

theorem exists_lists_of_rectangular {rows : List (List α)} (h : Rectangular rows) :
    ∃ t, ofRows? rows = .ok t ∧ t.Lists rows := by
  unfold ofRows?
  split
  next hragged =>
    rw [ragged?_eq_none_iff.mpr h] at hragged
    cases hragged
  next =>
    refine ⟨_, rfl, h, rfl, rfl, fun i j => ?_⟩
    have hj : j.val < rows[i].length := by
      rw [h rows[i] (List.getElem_mem _)]
      exact j.isLt
    simp [cell?, entry, get_eq_getElem]

theorem ofRows?_eq_raggedRow {rows : List (List α)} {row : List α} {i : ℕ}
    (h : ragged? rows = some (row, i)) :
    ofRows? rows = .error (.invalid (.raggedRow i row.length (width rows))) := by
  unfold ofRows?
  split
  next row' i' h' =>
    rw [h, Option.some.injEq, Prod.mk.injEq] at h'
    obtain ⟨rfl, rfl⟩ := h'
    rfl
  next h' =>
    rw [h] at h'
    cases h'

/-- The numbers of the rows are the entries of their table. -/
theorem Lists.cell?_eq_some_iff {rows : List (List α)} {t : Table α n m} (h : t.Lists rows)
    {i j : ℕ} {u : α} :
    cell? rows i j = some u ↔ ∃ (hi : i < n) (hj : j < m), t.entry ⟨i, hi⟩ ⟨j, hj⟩ = u := by
  constructor
  · intro hu
    obtain ⟨row, hrow, hrowu⟩ := Option.bind_eq_some_iff.mp hu
    obtain ⟨hi, rfl⟩ := List.getElem?_eq_some_iff.mp hrow
    obtain ⟨hj, -⟩ := List.getElem?_eq_some_iff.mp hrowu
    rw [h.rectangular _ (List.getElem_mem hi), h.width_eq] at hj
    rw [h.length_eq] at hi
    have hentry := h.cell ⟨i, hi⟩ ⟨j, hj⟩
    rw [hu, Option.some.injEq] at hentry
    exact ⟨hi, hj, hentry.symm⟩
  · rintro ⟨hi, hj, rfl⟩
    exact h.cell ⟨i, hi⟩ ⟨j, hj⟩

theorem Lists.cast {n' m' : ℕ} {rows : List (List α)} {t : Table α n' m'} (h : t.Lists rows)
    (hn : n = n') (hm : m = m') :
    (ofFn fun i j => t.entry (i.cast hn) (j.cast hm)).Lists rows := by
  subst hn hm
  refine ⟨h.rectangular, h.length_eq, h.width_eq, fun i j => ?_⟩
  rw [entry_ofFn]
  exact h.cell i j

theorem findSome?_finRange_eq_some_iff {f : Fin n → Option β} {b : β} :
    (List.finRange n).findSome? f = some b ↔ ∃ i, f i = some b ∧ ∀ k < i, f k = none := by
  induction n with
  | zero => simp
  | succ n ih =>
    rw [List.finRange_succ, List.findSome?_cons, List.findSome?_map]
    cases hzero : f 0 with
    | some c =>
      constructor
      · rintro h
        exact ⟨0, hzero.trans h, fun k hk => absurd hk (Fin.not_lt_zero k)⟩
      · rintro ⟨i, hi, hfirst⟩
        obtain rfl | hpos := eq_or_lt_of_le (Fin.zero_le i)
        · exact hzero.symm.trans hi
        · rw [hfirst 0 hpos] at hzero
          cases hzero
    | none =>
      dsimp only
      rw [ih]
      constructor
      · rintro ⟨i, hi, hfirst⟩
        refine ⟨i.succ, hi, fun k hk => ?_⟩
        cases k using Fin.cases with
        | zero => exact hzero
        | succ k => exact hfirst k (Fin.succ_lt_succ_iff.mp hk)
      · rintro ⟨i, hi, hfirst⟩
        cases i using Fin.cases with
        | zero =>
          rw [hzero] at hi
          cases hi
        | succ i => exact ⟨i, hi, fun k hk => hfirst k.succ (Fin.succ_lt_succ_iff.mpr hk)⟩

variable [Scalar α]

theorem nonFinite?_eq_some_iff {t : Table α n m} {cause : InvalidInput} :
    t.nonFinite? = some cause ↔ ∃ i j v, Scalar.nonFinite? (t.entry i j) = some v ∧
      cause = .notFinite i.val j.val v ∧
      ∀ i' j', Before i'.val j'.val i.val j.val → Scalar.nonFinite? (t.entry i' j') = none := by
  unfold nonFinite?
  simp only [findSome?_finRange_eq_some_iff, Option.map_eq_some_iff, List.findSome?_eq_none_iff,
    List.mem_finRange, forall_const, Option.map_eq_none_iff]
  constructor
  · rintro ⟨i, ⟨j, ⟨v, hv, rfl⟩, hj⟩, hi⟩
    refine ⟨i, j, v, hv, rfl, ?_⟩
    rintro i' j' (hlt | ⟨heq, hlt⟩)
    · exact hi i' hlt j'
    · rw [Fin.ext heq]
      exact hj j' hlt
  · rintro ⟨i, j, v, hv, rfl, hfirst⟩
    exact ⟨i, ⟨j, ⟨v, hv, rfl⟩, fun j' hj' => hfirst i j' (.inr ⟨rfl, hj'⟩)⟩,
      fun i' hi' j' => hfirst i' j' (.inl hi')⟩

def AllFinite (rows : List (List α)) : Prop :=
  ∀ row ∈ rows, ∀ u ∈ row, Scalar.nonFinite? u = none

theorem allFinite_iff {rows : List (List α)} :
    AllFinite rows ↔ ∀ i j u, cell? rows i j = some u → Scalar.nonFinite? u = none := by
  constructor
  · intro h i j u hu
    obtain ⟨row, hrow, hrowu⟩ := Option.bind_eq_some_iff.mp hu
    exact h row (List.mem_of_getElem? hrow) u (List.mem_of_getElem? hrowu)
  · intro h row hrow u hu
    obtain ⟨i, hi, rfl⟩ := List.getElem_of_mem hrow
    obtain ⟨j, hj, rfl⟩ := List.getElem_of_mem hu
    exact h i j _ (by simp [cell?, hi, hj])

/-- The first number of the rows that is not finite, row after row. -/
def FirstNonFinite (rows : List (List α)) (i j : ℕ) (v : NonFinite) : Prop :=
  (∃ u, cell? rows i j = some u ∧ Scalar.nonFinite? u = some v) ∧
    ∀ i' j' u, Before i' j' i j → cell? rows i' j' = some u → Scalar.nonFinite? u = none

variable {rows : List (List α)} {t : Table α n m}

theorem Lists.nonFinite?_eq_none_iff (h : t.Lists rows) :
    t.nonFinite? = none ↔ AllFinite rows := by
  rw [allFinite_iff]
  constructor
  · intro hnone i j u hu
    obtain ⟨hi, hj, rfl⟩ := h.cell?_eq_some_iff.mp hu
    exact nonFinite?_eq_none hnone _ _
  · intro hfinite
    by_contra hne
    obtain ⟨cause, hcause⟩ := Option.ne_none_iff_exists'.mp hne
    obtain ⟨i, j, v, hv, -, -⟩ := nonFinite?_eq_some_iff.mp hcause
    rw [hfinite i j _ (h.cell i j)] at hv
    cases hv

theorem Lists.firstNonFinite (h : t.Lists rows) {cause : InvalidInput}
    (hcause : t.nonFinite? = some cause) :
    ∃ i j v, cause = .notFinite i j v ∧ FirstNonFinite rows i j v := by
  obtain ⟨i, j, v, hv, rfl, hfirst⟩ := nonFinite?_eq_some_iff.mp hcause
  refine ⟨i, j, v, rfl, ⟨_, h.cell i j, hv⟩, fun i' j' u hbefore hu => ?_⟩
  obtain ⟨hi, hj, rfl⟩ := h.cell?_eq_some_iff.mp hu
  exact hfirst _ _ hbefore

theorem FirstNonFinite.not_allFinite {i j : ℕ} {v : NonFinite} (h : FirstNonFinite rows i j v) :
    ¬AllFinite rows := by
  obtain ⟨⟨u, hu, hv⟩, -⟩ := h
  intro hfinite
  rw [allFinite_iff.mp hfinite i j u hu] at hv
  cases hv

end Table

namespace Game

open Table

section Checks

variable {α : Type} [Scalar α] {row column : List (List α)}

structure Shaped (row column : List (List α)) : Prop where
  row_rectangular : Rectangular row
  column_rectangular : Rectangular column
  rows_eq : column.length = row.length
  columns_eq : width column = width row

/-- Rows that make a game. -/
structure Acceptable (row column : List (List α)) : Prop extends Shaped row column where
  rows_pos : 0 < row.length
  columns_pos : 0 < width row
  row_finite : AllFinite row
  column_finite : AllFinite column

/-- The first check that two lists of rows fail, with the place that it names. -/
inductive Refused (row column : List (List α)) : InvalidInput → Prop
  | raggedRow {i : ℕ} {r : List α} (ragged : FirstRagged row i r) :
      Refused row column (.raggedRow i r.length (width row))
  | raggedColumn {i : ℕ} {r : List α} (rectangular : Rectangular row)
      (ragged : FirstRagged column i r) :
      Refused row column (.raggedRow i r.length (width column))
  | shapesDiffer (row_rectangular : Rectangular row) (column_rectangular : Rectangular column)
      (differ : ¬(column.length = row.length ∧ width column = width row)) :
      Refused row column (.shapesDiffer row.length (width row) column.length (width column))
  | noStrategies (shaped : Shaped row column) (empty : ¬(0 < row.length ∧ 0 < width row)) :
      Refused row column (.noStrategies row.length (width row))
  | rowNotFinite {i j : ℕ} {v : NonFinite} (shaped : Shaped row column)
      (rows_pos : 0 < row.length) (columns_pos : 0 < width row)
      (first : FirstNonFinite row i j v) : Refused row column (.notFinite i j v)
  | columnNotFinite {i j : ℕ} {v : NonFinite} (shaped : Shaped row column)
      (rows_pos : 0 < row.length) (columns_pos : 0 < width row) (finite : AllFinite row)
      (first : FirstNonFinite column i j v) : Refused row column (.notFinite i j v)

theorem Refused.not_acceptable {cause : InvalidInput} (h : Refused row column cause) :
    ¬Acceptable row column := by
  intro haccept
  cases h with
  | raggedRow ragged =>
    exact ragged.2.1 (haccept.row_rectangular _ (List.mem_of_getElem? ragged.1))
  | raggedColumn _ ragged =>
    exact ragged.2.1 (haccept.column_rectangular _ (List.mem_of_getElem? ragged.1))
  | shapesDiffer _ _ differ => exact differ ⟨haccept.rows_eq, haccept.columns_eq⟩
  | noStrategies _ empty => exact empty ⟨haccept.rows_pos, haccept.columns_pos⟩
  | rowNotFinite _ _ _ first => exact first.not_allFinite haccept.row_finite
  | columnNotFinite _ _ _ _ first => exact first.not_allFinite haccept.column_finite

/-- The tables of two lists of rows make a game of the same numbers, unless a later check fails. -/
theorem ofPayoffs?_outcome {n m n' m' : ℕ} {t : Table α n m} {t' : Table α n' m'}
    (h : t.Lists row) (h' : t'.Lists column) :
    (∃ g : Game α n m, ofPayoffs? t.entry t'.entry = .ok g ∧ Acceptable row column ∧
        g.row.Lists row ∧ g.column.Lists column) ∨
      ∃ cause, (ofPayoffs? t.entry t'.entry : Except Fault (Game α n m)) = .error (.invalid cause) ∧
        Refused row column cause := by
  obtain rfl := h.length_eq
  obtain rfl := h.width_eq
  obtain rfl := h'.length_eq
  obtain rfl := h'.width_eq
  unfold ofPayoffs?
  split
  next shape =>
    have shaped : Shaped row column := ⟨h.rectangular, h'.rectangular, shape.1, shape.2⟩
    split
    next size =>
      have hrow : (ofFn t.entry).Lists row := h.cast rfl rfl
      have hcolumn := h'.cast shape.1.symm shape.2.symm
      dsimp only
      split
      next cause hcause =>
        obtain ⟨i, j, v, rfl, hfirst⟩ := hrow.firstNonFinite hcause
        exact .inr ⟨_, rfl, .rowNotFinite shaped size.1 size.2 hfirst⟩
      next cause hnone hcause =>
        obtain ⟨i, j, v, rfl, hfirst⟩ := hcolumn.firstNonFinite hcause
        exact .inr ⟨_, rfl, .columnNotFinite shaped size.1 size.2
          (hrow.nonFinite?_eq_none_iff.mp hnone) hfirst⟩
      next hnone hnone' =>
        exact .inl ⟨_, rfl, ⟨shaped, size.1, size.2, hrow.nonFinite?_eq_none_iff.mp hnone,
          hcolumn.nonFinite?_eq_none_iff.mp hnone'⟩, hrow, hcolumn⟩
    next empty => exact .inr ⟨_, rfl, .noStrategies shaped empty⟩
  next differ => exact .inr ⟨_, rfl, .shapesDiffer h.rectangular h'.rectangular differ⟩

/-- Two lists of rows make a game of their numbers, or they are refused by the first check that they
fail. -/
theorem ofRows?_cases (row column : List (List α)) :
    (∃ g, ofRows? row column = .ok g ∧ Acceptable row column ∧ g.row.Lists row ∧
        g.column.Lists column) ∨
      ∃ cause, ofRows? row column = .error (.invalid cause) ∧ Refused row column cause := by
  unfold ofRows?
  cases hrow : ragged? row with
  | some x =>
    rw [ofRows?_eq_raggedRow hrow]
    exact .inr ⟨_, rfl, .raggedRow (ragged?_eq_some_iff.mp hrow)⟩
  | none =>
    have hrect := ragged?_eq_none_iff.mp hrow
    obtain ⟨t, ht, hlists⟩ := exists_lists_of_rectangular hrect
    rw [ht]
    cases hcolumn : ragged? column with
    | some x =>
      rw [ofRows?_eq_raggedRow hcolumn]
      exact .inr ⟨_, rfl, .raggedColumn hrect (ragged?_eq_some_iff.mp hcolumn)⟩
    | none =>
      obtain ⟨t', ht', hlists'⟩ := exists_lists_of_rectangular (ragged?_eq_none_iff.mp hcolumn)
      rw [ht']
      exact ofPayoffs?_outcome hlists hlists'

end Checks

theorem nonFinite?_float_eq_none_iff (x : Float) :
    Scalar.nonFinite? x = none ↔ x.isFinite = true := by
  change (if x.isFinite then none else if x < 0 then some NonFinite.negInfinity
    else if 0 < x then some .infinity else some .nan) = none ↔ _
  split_ifs with hfinite <;> simp [hfinite]

theorem acceptable_iff {row column : List (List Float)} :
    Acceptable row column ↔ Shaped row column ∧ 0 < row.length ∧ 0 < width row ∧
      ∀ r ∈ row ++ column, ∀ u ∈ r, u.isFinite = true := by
  simp only [List.mem_append, or_imp, forall_and, ← nonFinite?_float_eq_none_iff]
  constructor
  · rintro ⟨shaped, hrows, hcolumns, hrow, hcolumn⟩
    exact ⟨shaped, hrows, hcolumns, hrow, hcolumn⟩
  · rintro ⟨shaped, hrows, hcolumns, hrow, hcolumn⟩
    exact ⟨shaped, hrows, hcolumns, hrow, hcolumn⟩

/-- Two lists of rows of floats make a game exactly if both are rectangular, of one shape without an
empty side, and all their numbers are finite; the game holds these numbers at their places.
Otherwise the first check that they fail is named: a row of another length, the row player's list
first, then the two shapes, the empty shape, and the first number that is not finite. -/
theorem ofRows?_outcome (row column : List (List Float)) :
    match ofRows? row column with
    | .ok g =>
      (Shaped row column ∧ 0 < row.length ∧ 0 < width row ∧
          ∀ r ∈ row ++ column, ∀ u ∈ r, u.isFinite = true) ∧
        ∀ i j, cell? row i.val j.val = some (g.row.entry i j) ∧
          cell? column i.val j.val = some (g.column.entry i j)
    | .error f =>
      ¬(Shaped row column ∧ 0 < row.length ∧ 0 < width row ∧
          ∀ r ∈ row ++ column, ∀ u ∈ r, u.isFinite = true) ∧
        ∃ cause, f = .invalid cause ∧ Refused row column cause := by
  obtain ⟨g, hg, haccept, hrow, hcolumn⟩ | ⟨cause, hcause, hrefused⟩ := ofRows?_cases row column
  · rw [hg]
    exact ⟨acceptable_iff.mp haccept, fun i j => ⟨hrow.cell i j, hcolumn.cell i j⟩⟩
  · rw [hcause]
    exact ⟨mt acceptable_iff.mpr hrefused.not_acceptable, cause, rfl, hrefused⟩

/-- Rows with three faults are refused for the first of them. -/
example : ofRows? [[1, 2], [3]] [[0 / 0], [1, 2, 3]] =
    (.error (.invalid (.raggedRow 1 1 2)) : Except Fault (Game Float _ _)) := rfl

end Game

end Bimatrix
