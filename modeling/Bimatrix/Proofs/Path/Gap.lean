import Mathlib.Tactic
import Bimatrix.Proofs.Path.Sides
import Bimatrix.Proofs.Tableau.InPlace

/-! # Gaps

Two tableaus over the same labels may miss any number of labels and share any number.  An advance of
either player brings the least missing label in, and the label that leaves is missing afterwards
unless the other tableau has it.  So the gap never grows, in whatever order the players advance, and
its size is known from the labels that are basic in both tableaus.
-/
namespace Bimatrix

variable {α : Type} {n m l : ℕ}

namespace Tableau
variable [Scalar α] {t : Tableau α n l} {q : ℕ} {x : Exchange α n l}

theorem isBasic_of_pivot (hx : t.pivot q = .ok x) : t.isBasic x.leaving = true := by
  obtain ⟨hq, -⟩ := pivot_eq_ok_iff.mp hx
  obtain ⟨hleaving, -⟩ := pivot_label (q := ⟨q, hq⟩) hx
  exact isBasic_iff.mpr ⟨x.row, by rw [hleaving]⟩

/-- After a pivot the label that has entered is basic, and those that were, but for one. -/
theorem isBasic_pivot (hinj : Function.Injective t.label) (hx : t.pivot q = .ok x) {k : ℕ} :
    x.tableau.isBasic k = true ↔ k = q ∨ t.isBasic k = true ∧ k ≠ x.leaving := by
  obtain ⟨hq, -⟩ := pivot_eq_ok_iff.mp hx
  obtain ⟨hleaving, hlabel⟩ := pivot_label (q := ⟨q, hq⟩) hx
  rw [isBasic_iff, isBasic_iff, hlabel, hleaving]
  constructor
  · rintro ⟨i, rfl⟩
    by_cases hi : i = x.row
    · simp [hi]
    · rw [Function.update_of_ne hi]
      exact .inr ⟨⟨i, rfl⟩, Fin.val_ne_of_ne (hinj.ne hi)⟩
  · rintro (rfl | ⟨⟨i, rfl⟩, hne⟩)
    · exact ⟨x.row, by simp⟩
    · have hi : i ≠ x.row := fun h => hne (by rw [h])
      exact ⟨i, by rw [Function.update_of_ne hi]⟩

end Tableau

namespace Pair

def tableauOf (p : Pair α n l m l) : (side : Player) → Tableau α (side.size n m) l
  | .row => p.row
  | .column => p.column

def withTableau (p : Pair α n l m l) :
    (side : Player) → Tableau α (side.size n m) l → Pair α n l m l
  | .row, t => { p with row := t }
  | .column, t => { p with column := t }

@[simp] theorem withTableau_tableauOf (p : Pair α n l m l) (side : Player) :
    p.withTableau side (p.tableauOf side) = p := by
  cases side <;> rfl

@[simp] theorem tableauOf_withTableau (p : Pair α n l m l) (side : Player)
    (t : Tableau α (side.size n m) l) : (p.withTableau side t).tableauOf side = t := by
  cases side <;> rfl

@[simp] theorem tableauOf_other_withTableau (p : Pair α n l m l) (side : Player)
    (t : Tableau α (side.size n m) l) :
    (p.withTableau side t).tableauOf side.other = p.tableauOf side.other := by
  cases side <;> rfl

theorem mem_gap_iff_tableauOf {p : Pair α n l m l} {k : ℕ} (side : Player) :
    k ∈ p.gap ↔ k < l ∧ (p.tableauOf side).isBasic k = false ∧
      (p.tableauOf side.other).isBasic k = false := by
  cases side with
  | row => exact mem_gap_iff
  | column => exact mem_gap_iff.trans (and_congr_right fun _ => and_comm)

theorem gap_pairwise (p : Pair α n l m l) : p.gap.Pairwise (· < ·) :=
  List.pairwise_lt_range.filter _

theorem isLeast_head_gap {p : Pair α n l m l} {q : ℕ} (h : p.gap.head? = some q) :
    IsLeast {k | k ∈ p.gap} q := by
  obtain ⟨rest, hgap⟩ := List.head?_eq_some_iff.mp h
  have hsorted := p.gap_pairwise
  rw [hgap] at hsorted ⊢
  refine ⟨List.mem_cons_self, fun k hk => ?_⟩
  rcases List.mem_cons.mp hk with rfl | hk
  · exact le_rfl
  · exact (List.rel_of_pairwise_cons hsorted hk).le

theorem gap_eq_nil_iff {p : Pair α n l m l} :
    p.gap = [] ↔ ∀ k < l, p.row.isBasic k = true ∨ p.column.isBasic k = true := by
  simp only [List.eq_nil_iff_forall_not_mem, mem_gap_iff, not_and, ← Bool.not_eq_true,
    or_iff_not_imp_left, not_not]

/-- The labels that are basic in both tableaus. -/
def shared (p : Pair α n l m l) : Finset (Fin l) := p.row.basisSet ∩ p.column.basisSet

theorem toFinset_gap (p : Pair α n l m l) :
    p.gap.toFinset = (p.row.basisSet ∪ p.column.basisSet)ᶜ.map Fin.valEmbedding := by
  ext k
  simp only [List.mem_toFinset, mem_gap_iff, Finset.mem_map, Finset.mem_compl, Finset.mem_union,
    not_or, Fin.valEmbedding_apply, Tableau.mem_basisSet, ← Tableau.isBasic_val_iff,
    Bool.not_eq_true]
  constructor
  · rintro ⟨hk, hbasic⟩
    exact ⟨⟨k, hk⟩, hbasic, rfl⟩
  · rintro ⟨k, hbasic, rfl⟩
    exact ⟨k.isLt, hbasic⟩

/-- Labels are counted once for each tableau, those in both of them twice. -/
theorem length_gap {p : Pair α n l m l}
    (hinj : ∀ side, Function.Injective (p.tableauOf side).label) :
    (p.gap.length : ℤ) = l - n - m + p.shared.card := by
  have hcompl : p.gap.length = l - (p.row.basisSet ∪ p.column.basisSet).card := by
    rw [← List.toFinset_card_of_nodup p.gap_pairwise.nodup, toFinset_gap, Finset.card_map,
      Finset.card_compl, Fintype.card_fin]
  have hle : (p.row.basisSet ∪ p.column.basisSet).card ≤ l := by
    simpa using Finset.card_le_univ (p.row.basisSet ∪ p.column.basisSet)
  have hunion : (p.row.basisSet ∪ p.column.basisSet).card + p.shared.card = n + m := by
    rw [shared, Finset.card_union_add_card_inter, Tableau.card_basisSet (t := p.row) (hinj .row),
      Tableau.card_basisSet (t := p.column) (hinj .column)]
  omega

def onTableau {β : Type} (side : Player)
    (command : ExceptT Fault (StateM (Tableau α (side.size n m) l)) β) :
    ExceptT Fault (StateM (Pair α n l m l)) β :=
  ExceptT.mk fun p =>
    let (answer, t) := command.run.run (p.tableauOf side)
    (answer, p.withTableau side t)

theorem run_onTableau_bind {β γ : Type} (side : Player)
    (command : ExceptT Fault (StateM (Tableau α (side.size n m) l)) β)
    (f : β → ExceptT Fault (StateM (Pair α n l m l)) γ) (p : Pair α n l m l) :
    (onTableau side command >>= f).run.run p =
      match command.run.run (p.tableauOf side) with
      | (.ok b, t) => (f b).run.run (p.withTableau side t)
      | (.error e, t) => (.error e, p.withTableau side t) := by
  have hrun : (onTableau side command).run.run p =
      ((command.run.run (p.tableauOf side)).1,
        p.withTableau side (command.run.run (p.tableauOf side)).2) := rfl
  rw [ExceptT.run_bind, StateT.run_bind, hrun]
  rcases command.run.run (p.tableauOf side) with ⟨e | b, t⟩ <;> rfl

variable [Scalar α]

theorem advance_of_head? {p : Pair α n l m l} {q : ℕ} (h : p.gap.head? = some q) (side : Player) :
    p.advance side = ((p.tableauOf side).pivot q).map fun x =>
      some (⟨⟨q, x.leaving, x.row⟩, p.gap⟩, p.withTableau side x.tableau) := by
  cases side with
  | row => exact advance_row h
  | column => exact advance_column h

/-- The label that enters is missing no longer, and the label that leaves is missing instead unless
the other tableau has it. -/
theorem mem_gap_withTableau {p : Pair α n l m l} {side : Player}
    (hinj : Function.Injective (p.tableauOf side).label) {q : ℕ}
    {x : Exchange α (side.size n m) l} (hx : (p.tableauOf side).pivot q = .ok x) {k : ℕ} :
    k ∈ (p.withTableau side x.tableau).gap ↔ k ∈ p.gap ∧ k ≠ q ∨
      (p.tableauOf side.other).isBasic x.leaving = false ∧ k = x.leaving := by
  obtain ⟨hq, -⟩ := Tableau.pivot_eq_ok_iff.mp hx
  have hleaving := Tableau.isBasic_of_pivot hx
  have hne : x.leaving.val ≠ q := Fin.val_ne_of_ne (Tableau.leaving_ne (q := ⟨q, hq⟩) hx)
  simp only [mem_gap_iff_tableauOf side, tableauOf_withTableau, tableauOf_other_withTableau,
    ← Bool.not_eq_true, Tableau.isBasic_pivot hinj hx]
  -- the label that leaves is the only one that is basic on the side of the pivot before, not after
  by_cases hk : k = x.leaving.val
  · simp [hk, hleaving, hne]
  · simp only [hk]
    tauto

theorem leaving_notMem_gap {p : Pair α n l m l} {side : Player} {q : ℕ}
    {x : Exchange α (side.size n m) l} (hx : (p.tableauOf side).pivot q = .ok x) :
    x.leaving.val ∉ p.gap := by
  rw [mem_gap_iff_tableauOf side, Tableau.isBasic_of_pivot hx]
  simp

/-- What an advance makes of a pair.  The labels missing afterwards are those missing before, less
the one that enters, and the one that leaves unless the other tableau has it. -/
structure Advances (p : Pair α n l m l) (side : Player) (entering leaving : ℕ)
    (next : Pair α n l m l) : Prop where
  least : IsLeast {k | k ∈ p.gap} entering
  pivot : ∃ x, (p.tableauOf side).pivot entering = .ok x ∧ x.leaving.val = leaving ∧
    next.tableauOf side = x.tableau
  other : next.tableauOf side.other = p.tableauOf side.other
  gap_perm : next.gap.Perm (p.gap.erase entering ++
    if (p.tableauOf side.other).isBasic leaving then [] else [leaving])

theorem advances_withTableau {p : Pair α n l m l} {side : Player}
    (hinj : Function.Injective (p.tableauOf side).label) {q : ℕ} (hhead : p.gap.head? = some q)
    {x : Exchange α (side.size n m) l} (hx : (p.tableauOf side).pivot q = .ok x) :
    p.Advances side q x.leaving (p.withTableau side x.tableau) := by
  have hnodup := p.gap_pairwise.nodup
  refine ⟨isLeast_head_gap hhead, ⟨x, hx, rfl, by simp⟩, by simp, ?_⟩
  rw [List.perm_ext_iff_of_nodup (gap_pairwise _).nodup]
  · intro k
    rw [mem_gap_withTableau hinj hx, List.mem_append, hnodup.mem_erase_iff, and_comm (a := k ≠ _)]
    split_ifs with hbasic <;> simp [hbasic]
  · have hmissing : x.leaving.val ∉ p.gap.erase q :=
      fun hmem => leaving_notMem_gap hx (List.mem_of_mem_erase hmem)
    split_ifs
    · simpa using hnodup.erase q
    · rw [← List.concat_eq_append]
      exact (hnodup.erase q).concat hmissing

/-- An advance finds no label missing, or fails for want of a row, or brings the least missing label
in. -/
theorem advance_cases {p : Pair α n l m l} {side : Player}
    (hinj : Function.Injective (p.tableauOf side).label) :
    (p.gap = [] ∧ p.advance side = .ok none) ∨
      (∃ q, IsLeast {k | k ∈ p.gap} q ∧ p.advance side = .error (.degeneratePivot q)) ∨
      ∃ move next, p.Advances side move.entering move.leaving next ∧
        p.advance side = .ok (some (move, next)) := by
  cases hhead : p.gap.head? with
  | none =>
    have hgap := List.head?_eq_none_iff.mp hhead
    exact .inl ⟨hgap, advance_nil hgap side⟩
  | some q =>
    have hleast := isLeast_head_gap hhead
    obtain ⟨hq, hbasic, -⟩ := (mem_gap_iff_tableauOf side).mp hleast.1
    rw [advance_of_head? hhead]
    cases hx : (p.tableauOf side).pivot q with
    | error f =>
      obtain rfl := Tableau.eq_degeneratePivot_of_pivot hq hbasic hx
      exact .inr (.inl ⟨q, hleast, rfl⟩)
    | ok x => exact .inr (.inr ⟨_, _, advances_withTableau hinj hhead hx, rfl⟩)

namespace Advances
variable {p next : Pair α n l m l} {turn : Player} {entering leaving : ℕ}

theorem length_le (h : p.Advances turn entering leaving next) :
    next.gap.length ≤ p.gap.length := by
  have hpos : 0 < p.gap.length := List.length_pos_of_mem h.least.1
  have hle : (if (p.tableauOf turn.other).isBasic leaving then [] else [leaving]).length ≤ 1 := by
    split_ifs <;> simp
  rw [h.gap_perm.length_eq, List.length_append, List.length_erase_of_mem h.least.1]
  omega

theorem label_injective (h : p.Advances turn entering leaving next)
    (hinj : ∀ side, Function.Injective (p.tableauOf side).label) (side : Player) :
    Function.Injective (next.tableauOf side).label := by
  obtain ⟨x, hx, -, hnext⟩ := h.pivot
  obtain rfl | rfl := Player.eq_or_eq_other side turn
  · rw [hnext]
    exact Tableau.label_injective_pivot (hinj side) hx
  · rw [h.other]
    exact hinj _

end Advances

/-- Brings the least missing label into the tableau of one player of the pair at hand.  Gives the
label that enters and the one that leaves, or nothing when no label is missing. -/
def advanceInPlace (side : Player) : ExceptT Fault (StateM (Pair α n l m l)) (Option (ℕ × ℕ)) := do
  let p ← get
  match p.gap with
  | [] => return none
  | entering :: _ =>
    let leaving ← onTableau side (Tableau.pivotInPlace entering)
    return some (entering, leaving.val)

/-- What the command answers on a pair, and the pair that it leaves behind. -/
def tryAdvance (p : Pair α n l m l) (side : Player) :
    Except Fault (Option (ℕ × ℕ)) × Pair α n l m l :=
  (advanceInPlace side).run.run p

def tryAdvances (p : Pair α n l m l) (sides : List Player) : Pair α n l m l :=
  sides.foldl (fun q side => (q.tryAdvance side).2) p

/-- The command does what the advance does, and nothing when the advance fails or has nothing to
do. -/
theorem tryAdvance_eq (p : Pair α n l m l) (side : Player) :
    p.tryAdvance side =
      match p.advance side with
      | .ok (some (move, next)) => (.ok (some (move.entering, move.leaving)), next)
      | .ok none => (.ok none, p)
      | .error f => (.error f, p) := by
  unfold tryAdvance advanceInPlace
  rw [Tableau.run_get_bind]
  cases hgap : p.gap with
  | nil =>
    rw [advance_nil hgap]
    rfl
  | cons q rest =>
    have hhead : p.gap.head? = some q := by rw [hgap, List.head?_cons]
    have hpivot : (Tableau.pivotInPlace q).run.run (p.tableauOf side) = _ :=
      (p.tableauOf side).tryPivot_eq q
    dsimp only
    rw [advance_of_head? hhead, run_onTableau_bind, hpivot]
    cases (p.tableauOf side).pivot q with
    | ok x => rfl
    | error f => simp [Except.map]

theorem tryAdvance_invariant {p : Pair α n l m l}
    (hinj : ∀ side, Function.Injective (p.tableauOf side).label) (turn : Player) :
    (∀ side, Function.Injective ((p.tryAdvance turn).2.tableauOf side).label) ∧
      (p.tryAdvance turn).2.gap.length ≤ p.gap.length := by
  rw [tryAdvance_eq]
  obtain ⟨-, h⟩ | ⟨q, -, h⟩ | ⟨move, next, hnext, h⟩ := advance_cases (hinj turn)
  · rw [h]
    exact ⟨hinj, le_rfl⟩
  · rw [h]
    exact ⟨hinj, le_rfl⟩
  · rw [h]
    exact ⟨hnext.label_injective hinj, hnext.length_le⟩

theorem tryAdvances_invariant {p : Pair α n l m l}
    (hinj : ∀ side, Function.Injective (p.tableauOf side).label) (turns : List Player) :
    (∀ side, Function.Injective ((p.tryAdvances turns).tableauOf side).label) ∧
      (p.tryAdvances turns).gap.length ≤ p.gap.length := by
  induction turns generalizing p with
  | nil => exact ⟨hinj, le_rfl⟩
  | cons turn turns ih =>
    obtain ⟨hnext, hle⟩ := tryAdvance_invariant hinj turn
    obtain ⟨hlast, hle'⟩ := ih hnext
    exact ⟨hlast, hle'.trans hle⟩

/-- Two tableaus over the same labels, whatever their bases, coefficients and values.  An advance
has nothing to do exactly when every label is basic in one of them.  Otherwise it fails and changes
nothing, or brings the least missing label in on its side, and the label that leaves is missing
unless the other tableau has it.  Whatever advances follow one another, the gap never grows, and the
labels basic in both tableaus give its size. -/
theorem gap_tryAdvances {p : Pair α n l m l} {rowEntries : Fin n → Fin l → α}
    {columnEntries : Fin m → Fin l → α} {rowBasis columnBasis : List ℕ}
    {rowValues columnValues : List α}
    (hrow : Tableau.ofParts? rowEntries rowBasis rowValues = .ok p.row)
    (hcolumn : Tableau.ofParts? columnEntries columnBasis columnValues = .ok p.column) :
    (∀ side,
      (p.advance side = .ok none ↔
        ∀ k < l, p.row.isBasic k = true ∨ p.column.isBasic k = true) ∧
      match p.advance side with
      | .ok none => p.tryAdvance side = (.ok none, p)
      | .error f => p.tryAdvance side = (.error f, p) ∧
        ∃ q, IsLeast {k | k ∈ p.gap} q ∧ f = .degeneratePivot q
      | .ok (some (move, next)) =>
        p.tryAdvance side = (.ok (some (move.entering, move.leaving)), next) ∧
          p.Advances side move.entering move.leaving next) ∧
    ∀ turns more : List Player,
      ((p.tryAdvances turns).tryAdvances more).gap.length ≤ (p.tryAdvances turns).gap.length ∧
      ((p.tryAdvances turns).gap.length : ℤ) = l - n - m + (p.tryAdvances turns).shared.card := by
  have hinj : ∀ side, Function.Injective (p.tableauOf side).label := by
    intro side
    cases side with
    | row => exact (Tableau.parts_of_ofParts? hrow).2.2.2
    | column => exact (Tableau.parts_of_ofParts? hcolumn).2.2.2
  constructor
  · intro side
    rw [← gap_eq_nil_iff, tryAdvance_eq]
    obtain ⟨hgap, h⟩ | ⟨q, hq, h⟩ | ⟨move, next, hnext, h⟩ := advance_cases (hinj side)
    · simp [h, hgap]
    · have hne : p.gap ≠ [] := List.ne_nil_of_mem hq.1
      simpa [h, hne] using hq
    · have hne : p.gap ≠ [] := List.ne_nil_of_mem hnext.least.1
      simpa [h, hne] using hnext
  · intro turns more
    obtain ⟨hreached, -⟩ := tryAdvances_invariant hinj turns
    exact ⟨(tryAdvances_invariant hreached more).2, length_gap hreached⟩

/-- Label 1 is basic twice and three labels are missing, the least of which cannot enter the column
tableau. -/
def threeMissing : Pair ℚ 2 6 2 6 where
  row := ⟨#v[⟨0, #v[1, 0, 0, 1, 2, 0], 3⟩, ⟨1, #v[0, 1, 0, 1, 1, 0], 1⟩]⟩
  column := ⟨#v[⟨1, #v[0, 1, 0, -1, 2, 0], 1⟩, ⟨2, #v[0, 0, 1, 0, 1, 1], 1⟩]⟩

/-- The row player's advance leaves one label less missing, since the label that leaves is basic in
the column tableau; the column player's advance fails. -/
theorem gap_tryAdvances_threeMissing :
    Tableau.ofParts? threeMissing.row.entries [0, 1] [3, 1] = .ok threeMissing.row ∧
      Tableau.ofParts? threeMissing.column.entries [1, 2] [1, 1] = .ok threeMissing.column ∧
      threeMissing.gap = [3, 4, 5] ∧ threeMissing.shared = {1} ∧
      (∃ next, threeMissing.tryAdvance .row = (.ok (some (3, 1)), next) ∧
        threeMissing.Advances .row 3 1 next ∧ next.gap = [4, 5]) ∧
      threeMissing.tryAdvance .column = (.error (.degeneratePivot 3), threeMissing) ∧
      (threeMissing.tryAdvances [.column, .row, .column]).gap = [1, 5] ∧
      ((threeMissing.tryAdvances [.column, .row, .column]).gap.length : ℤ) =
        6 - 2 - 2 + (threeMissing.tryAdvances [.column, .row, .column]).shared.card := by
  have hrow : Tableau.ofParts? threeMissing.row.entries [0, 1] [3, 1] = .ok threeMissing.row :=
    Tableau.ofParts?_eq_ok_iff.mpr ⟨by decide +kernel, by decide +kernel, rfl, by decide +kernel⟩
  have hcolumn : Tableau.ofParts? threeMissing.column.entries [1, 2] [1, 1] =
      .ok threeMissing.column :=
    Tableau.ofParts?_eq_ok_iff.mpr ⟨by decide +kernel, by decide +kernel, rfl, by decide +kernel⟩
  have hgap : threeMissing.gap = [3, 4, 5] := by decide +kernel
  have hhead : threeMissing.gap.head? = some 3 := by rw [hgap, List.head?_cons]
  have hpivot : threeMissing.row.pivot 3 = .ok ⟨1, 1, threeMissing.row.exchange 1 3⟩ :=
    Tableau.pivot_eq_ok_iff.mpr ⟨by decide, by decide +kernel, by decide +kernel, rfl⟩
  have hrefused : threeMissing.column.pivot 3 = .error (.degeneratePivot 3) :=
    (Tableau.pivot_eq_error_iff (q := 3) (by decide +kernel)).mpr ⟨rfl, by decide +kernel⟩
  obtain ⟨hadvance, hrun⟩ := gap_tryAdvances hrow hcolumn
  obtain ⟨-, hsuccess⟩ := hadvance .row
  obtain ⟨-, hfailure⟩ := hadvance .column
  rw [advance_row hhead, hpivot] at hsuccess
  rw [advance_column hhead, hrefused] at hfailure
  exact ⟨hrow, hcolumn, hgap, by decide +kernel, ⟨_, hsuccess.1, hsuccess.2, by decide +kernel⟩,
    hfailure.1, by decide +kernel, (hrun [.column, .row, .column] []).2⟩

end Pair

end Bimatrix
