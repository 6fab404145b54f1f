import Mathlib.GroupTheory.Perm.Fin
import Mathlib.Tactic
import Bimatrix.Proofs.Game.Systems
import Bimatrix.Proofs.Path.Course

/-! # The orientation of a path

Along a path one label is missing and the starting label is basic twice, until the path closes.
With the missing label in place of the second occurrence of the starting one, the two bases list
every label once in the order of their rows.  Each pivot exchanges two labels of that list, so its
sign tells whose turn it is; a path that has closed has sign minus one, whatever the arithmetic.
-/
namespace Bimatrix

variable {α : Type} {n m : ℕ}

def Player.sign : Player → ℤˣ
  | row => 1
  | column => -1

theorem Player.sign_other (side : Player) : side.other.sign = -side.sign := by
  cases side <;> rfl

def listingSign (σ : Fin n ⊕ Fin m ≃ Fin (n + m)) : ℤˣ :=
  Equiv.Perm.sign (σ.trans finSumFinEquiv.symm)

theorem listingSign_trans_swap (σ : Fin n ⊕ Fin m ≃ Fin (n + m)) {a b : Fin (n + m)}
    (h : a ≠ b) : listingSign (σ.trans (Equiv.swap a b)) = -listingSign σ := by
  have hswap : (σ.trans (Equiv.swap a b)).trans finSumFinEquiv.symm =
      Equiv.swap (finSumFinEquiv.symm a) (finSumFinEquiv.symm b) *
        σ.trans finSumFinEquiv.symm := by
    ext x
    simp only [Equiv.trans_apply, Equiv.Perm.mul_apply]
    rw [finSumFinEquiv.symm.injective.map_swap]
  rw [listingSign, hswap, Equiv.Perm.sign_mul,
    Equiv.Perm.sign_swap (finSumFinEquiv.symm.injective.ne h), neg_one_mul]
  rfl

theorem trans_swap_eq_iff {σ : Fin n ⊕ Fin m ≃ Fin (n + m)} {a b : Fin (n + m)}
    {x : Fin n ⊕ Fin m} : (σ.trans (Equiv.swap a b)) x = b ↔ σ x = a := by
  rw [Equiv.trans_apply, Equiv.swap_apply_eq_iff, Equiv.swap_apply_right]

namespace Pair

/-- A pair that misses one label and has the starting label twice. -/
structure Open (p : Pair α n (n + m) m (n + m)) (start missing : Fin (n + m))
    (σ : Fin n ⊕ Fin m ≃ Fin (n + m)) : Prop where
  row : ∀ i, p.row.label i = σ (.inl i)
  column : ∀ j, p.column.label j = if σ (.inr j) = missing then start else σ (.inr j)
  start_row : ∃ i, σ (.inl i) = start
  missing_column : ∃ j, σ (.inr j) = missing

/-- A pair whose bases have every label once. -/
structure Closed (p : Pair α n (n + m) m (n + m)) (σ : Fin n ⊕ Fin m ≃ Fin (n + m)) : Prop where
  row : ∀ i, p.row.label i = σ (.inl i)
  column : ∀ j, p.column.label j = σ (.inr j)

variable {p : Pair α n (n + m) m (n + m)} {start missing : Fin (n + m)}
  {σ : Fin n ⊕ Fin m ≃ Fin (n + m)}

theorem Open.start_ne (h : p.Open start missing σ) : start ≠ missing := by
  obtain ⟨i, rfl⟩ := h.start_row
  obtain ⟨j, rfl⟩ := h.missing_column
  exact σ.injective.ne Sum.inl_ne_inr

theorem Open.row_ne (h : p.Open start missing σ) (i : Fin n) : σ (.inl i) ≠ missing := by
  obtain ⟨j, rfl⟩ := h.missing_column
  exact σ.injective.ne Sum.inl_ne_inr

theorem Open.column_ne (h : p.Open start missing σ) (j : Fin m) : σ (.inr j) ≠ start := by
  obtain ⟨i, rfl⟩ := h.start_row
  exact σ.injective.ne Sum.inr_ne_inl

theorem Open.start_row_swap (h : p.Open start missing σ) {l : Fin (n + m)} (hl : l ≠ start) :
    ∃ i, (σ.trans (Equiv.swap missing l)) (.inl i) = start := by
  obtain ⟨i, hi⟩ := h.start_row
  use i
  rw [Equiv.trans_apply, hi, Equiv.swap_apply_of_ne_of_ne h.start_ne hl.symm]

theorem Open.missing_column_swap (h : p.Open start missing σ) (l : Fin (n + m)) :
    ∃ j, (σ.trans (Equiv.swap missing l)) (.inr j) = l := by
  obtain ⟨j, hj⟩ := h.missing_column
  use j
  rw [Equiv.trans_apply, hj, Equiv.swap_apply_left]

theorem Open.mem_gap_iff (h : p.Open start missing σ) {q : ℕ} :
    q ∈ p.gap ↔ q = missing.val := by
  rw [Pair.mem_gap_iff, Tableau.isBasic_eq_false_iff, Tableau.isBasic_eq_false_iff]
  constructor
  · rintro ⟨hq, hrow, hcolumn⟩
    obtain ⟨i | j, hij⟩ := σ.surjective ⟨q, hq⟩
    · exact absurd (congrArg Fin.val ((h.row i).trans hij)) (hrow i)
    · by_contra hne
      apply hcolumn j
      rw [h.column, hij, if_neg fun heq => hne (congrArg Fin.val heq)]
  · rintro rfl
    refine ⟨missing.isLt, ?_, ?_⟩
    · intro i
      rw [h.row]
      exact Fin.val_ne_of_ne (h.row_ne i)
    · intro j
      rw [h.column]
      split_ifs with hj
      · exact Fin.val_ne_of_ne h.start_ne
      · exact Fin.val_ne_of_ne hj

theorem Open.gap_eq (h : p.Open start missing σ) : p.gap = [missing.val] := by
  have hnodup : p.gap.Nodup := List.nodup_range.filter _
  apply List.perm_singleton.mp
  apply (List.perm_ext_iff_of_nodup hnodup (List.nodup_singleton _)).mpr
  intro q
  rw [h.mem_gap_iff, List.mem_singleton]

theorem Closed.gap_eq (h : p.Closed σ) : p.gap = [] := by
  apply List.eq_nil_iff_forall_not_mem.mpr
  intro q hq
  rw [Pair.mem_gap_iff, Tableau.isBasic_eq_false_iff, Tableau.isBasic_eq_false_iff] at hq
  obtain ⟨hq, hrow, hcolumn⟩ := hq
  obtain ⟨i | j, hij⟩ := σ.surjective ⟨q, hq⟩
  · exact hrow i (congrArg Fin.val ((h.row i).trans hij))
  · exact hcolumn j (congrArg Fin.val ((h.column j).trans hij))

variable [Scalar α]

/-- A pivot of the row tableau exchanges the missing label and the one that leaves. -/
theorem Open.row_step (h : p.Open start missing σ) {x : Exchange α n (n + m)}
    (hx : p.row.pivot missing.val = .ok x) :
    (x.leaving = start ∧
        (⟨x.tableau, p.column⟩ : Pair α n (n + m) m (n + m)).Closed
          (σ.trans (Equiv.swap missing x.leaving))) ∨
      (x.leaving ≠ start ∧
        (⟨x.tableau, p.column⟩ : Pair α n (n + m) m (n + m)).Open start x.leaving
          (σ.trans (Equiv.swap missing x.leaving))) := by
  obtain ⟨hleaving, hlabel⟩ := Tableau.pivot_label hx
  rw [h.row] at hleaving
  have hrow (i : Fin n) : x.tableau.label i =
      (σ.trans (Equiv.swap missing x.leaving)) (.inl i) := by
    rw [hlabel, Function.update_apply, Equiv.trans_apply, hleaving]
    split_ifs with hi
    · rw [hi, Equiv.swap_apply_right]
    · have hne : σ (.inl i) ≠ σ (.inl x.row) := σ.injective.ne (by simpa using hi)
      rw [h.row, Equiv.swap_apply_of_ne_of_ne (h.row_ne i) hne]
  have hcolumn (j : Fin m) : p.column.label j =
      if σ (.inr j) = missing then start
      else (σ.trans (Equiv.swap missing x.leaving)) (.inr j) := by
    rw [h.column, Equiv.trans_apply, hleaving]
    split_ifs with hj
    · rfl
    · rw [Equiv.swap_apply_of_ne_of_ne hj (σ.injective.ne Sum.inr_ne_inl)]
  by_cases hstart : x.leaving = start
  · refine .inl ⟨hstart, hrow, fun j => ?_⟩
    refine (hcolumn j).trans ?_
    split_ifs with hj
    · rw [Equiv.trans_apply, hj, Equiv.swap_apply_left, hstart]
    · rfl
  · refine .inr ⟨hstart, hrow, fun j => ?_, h.start_row_swap hstart, h.missing_column_swap _⟩
    refine (hcolumn j).trans ?_
    simp only [trans_swap_eq_iff]

/-- A pivot of the column tableau does so too, except that the starting label leaves its second
place to the missing one. -/
theorem Open.column_step (h : p.Open start missing σ) {x : Exchange α m (n + m)}
    (hx : p.column.pivot missing.val = .ok x) :
    (x.leaving = start ∧ (⟨p.row, x.tableau⟩ : Pair α n (n + m) m (n + m)).Closed σ) ∨
      (x.leaving ≠ start ∧
        (⟨p.row, x.tableau⟩ : Pair α n (n + m) m (n + m)).Open start x.leaving
          (σ.trans (Equiv.swap missing x.leaving))) := by
  obtain ⟨hleaving, hlabel⟩ := Tableau.pivot_label hx
  rw [h.column] at hleaving
  by_cases hr : σ (.inr x.row) = missing
  · rw [if_pos hr] at hleaving
    refine .inl ⟨hleaving, h.row, fun j => ?_⟩
    dsimp only
    rw [hlabel, Function.update_apply]
    split_ifs with hj
    · rw [hj, hr]
    · have hne : σ (.inr j) ≠ missing := by
        rw [← hr]
        exact σ.injective.ne (by simpa using hj)
      rw [h.column, if_neg hne]
  · rw [if_neg hr] at hleaving
    have hstart : x.leaving ≠ start := by
      rw [hleaving]
      exact h.column_ne x.row
    refine .inr ⟨hstart, fun i => ?_, fun j => ?_, h.start_row_swap hstart,
      h.missing_column_swap _⟩
    · rw [Equiv.trans_apply, hleaving,
        Equiv.swap_apply_of_ne_of_ne (h.row_ne i) (σ.injective.ne Sum.inl_ne_inr)]
      exact h.row i
    · dsimp only
      rw [hlabel, Function.update_apply, if_congr trans_swap_eq_iff rfl rfl]
      by_cases hj : j = x.row
      · rw [if_pos hj, hj, if_neg hr, Equiv.trans_apply, ← hleaving, Equiv.swap_apply_right]
      · rw [if_neg hj, h.column]
        split_ifs with hjm
        · rfl
        · have hne : σ (.inr j) ≠ x.leaving := by
            rw [hleaving]
            exact σ.injective.ne (by simpa using hj)
          rw [Equiv.trans_apply, Equiv.swap_apply_of_ne_of_ne hjm hne]

end Pair

namespace Game

variable [Scalar α] {g : Game α n m}

theorem open_of_warmStart {start : Fin n} {x : Exchange α m (n + m)}
    (hx : g.columnTableau.pivot start = .ok x) :
    (⟨g.rowTableau, x.tableau⟩ : Pair α n (n + m) m (n + m)).Open (start.castAdd m) x.leaving
      finSumFinEquiv := by
  obtain ⟨hleaving, hlabel⟩ := Tableau.pivot_label (q := start.castAdd m) hx
  rw [columnTableau_label] at hleaving
  refine ⟨g.rowTableau_label, fun j => ?_, ⟨start, rfl⟩, ⟨x.row, hleaving.symm⟩⟩
  dsimp only
  rw [hlabel, Function.update_apply, columnTableau_label, finSumFinEquiv_apply_right, hleaving]
  apply if_congr _ rfl rfl
  rw [Fin.natAdd_inj]

/-- The path is open, with the sign of the player to move, until it closes with sign minus one. -/
theorem open_or_closed {start : Fin n} {i : ℕ} {p : Pair α n (n + m) m (n + m)}
    (h : g.pairAt? start i = some p) :
    (∃ missing σ, p.Open (start.castAdd m) missing σ ∧
        listingSign σ = (Player.turn i).sign) ∨
      ∃ σ, p.Closed σ ∧ listingSign σ = -1 := by
  induction i generalizing p with
  | zero =>
    obtain ⟨x, hx, rfl⟩ := pairAt?_zero_eq_some_iff.mp h
    refine .inl ⟨x.leaving, finSumFinEquiv, open_of_warmStart hx, ?_⟩
    rw [listingSign, Equiv.self_trans_symm, Equiv.Perm.sign_refl]
    rfl
  | succ i ih =>
    obtain ⟨p, hp, hnext⟩ := pairAt?_succ_eq_some_iff.mp h
    obtain ⟨missing, σ, hopen, hsign⟩ | ⟨σ, hclosed, -⟩ := ih hp
    · have hgap : p.gap.head? = some missing.val := by rw [hopen.gap_eq, List.head?_cons]
      rw [Player.turn, Player.sign_other, ← hsign]
      cases hside : Player.turn i with
      | row =>
        rw [hside] at hnext hsign
        obtain ⟨q, x, hq, hx, rfl⟩ := Pair.next?_row_eq_some_iff.mp hnext
        obtain rfl := Option.some.inj (hgap.symm.trans hq)
        have hflip := listingSign_trans_swap σ (Tableau.leaving_ne hx).symm
        obtain ⟨-, hclosed⟩ | ⟨-, hopen⟩ := hopen.row_step hx
        · exact .inr ⟨_, hclosed, by rw [hflip, hsign]; rfl⟩
        · exact .inl ⟨_, _, hopen, hflip⟩
      | column =>
        rw [hside] at hnext hsign
        obtain ⟨q, x, hq, hx, rfl⟩ := Pair.next?_column_eq_some_iff.mp hnext
        obtain rfl := Option.some.inj (hgap.symm.trans hq)
        have hflip := listingSign_trans_swap σ (Tableau.leaving_ne hx).symm
        obtain ⟨-, hclosed⟩ | ⟨-, hopen⟩ := hopen.column_step hx
        · exact .inr ⟨_, hclosed, hsign⟩
        · exact .inl ⟨_, _, hopen, hflip⟩
    · rw [Pair.next?, Pair.advance_nil hclosed.gap_eq] at hnext
      cases hnext

theorem exists_gap_eq {start : Fin n} {i : ℕ} {p : Pair α n (n + m) m (n + m)}
    (h : g.pairAt? start i = some p) (hgap : p.gap ≠ []) :
    ∃ missing : Fin (n + m), p.gap = [missing.val] := by
  obtain ⟨missing, σ, hopen, -⟩ | ⟨σ, hclosed, -⟩ := open_or_closed h
  · exact ⟨missing, hopen.gap_eq⟩
  · exact absurd hclosed.gap_eq hgap

theorem closed_of_gap_eq_nil {start : Fin n} {i : ℕ} {p : Pair α n (n + m) m (n + m)}
    (h : g.pairAt? start i = some p) (hgap : p.gap = []) :
    ∃ σ, p.Closed σ ∧ listingSign σ = -1 := by
  obtain ⟨missing, σ, hopen, -⟩ | hclosed := open_or_closed h
  · rw [hopen.gap_eq] at hgap
    cases hgap
  · exact hclosed

end Game

end Bimatrix
