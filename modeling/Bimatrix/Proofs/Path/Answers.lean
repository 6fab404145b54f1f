import Mathlib.Tactic
import Bimatrix.Proofs.Path.Complementarity
import Bimatrix.Proofs.Tableau.Parts

/-! # The answers of the solver

Whatever the arithmetic, a solver refuses a starting label out of range and nothing else.  Else it
finds an equilibrium, is stuck for want of a row, or reports its bound, and a larger bound changes
the last of these answers only.
-/
namespace Bimatrix

variable {α : Type} {n m : ℕ}

theorem Walk.events_eq_of_ending {w : Walk α n (n + m) m (n + m)} (h : w.ending ≠ .exhausted)
    (start bound bound' : ℕ) : w.events start bound = w.events start bound' := by
  unfold events
  split
  · rfl
  · rfl
  next hending => exact absurd hending h

variable [Scalar α]

namespace Game

def rowCoefficients (g : Game α n m) (i : Fin n) : Fin (n + m) → α :=
  Fin.addCases (fun k => if k = i then 1 else 0) (g.normalizedRow.entry i)

def columnCoefficients (g : Game α n m) (j : Fin m) : Fin (n + m) → α :=
  Fin.addCases (fun i => g.normalizedColumn.entry i j) fun k => if k = j then 1 else 0

theorem entries_rowTableau (g : Game α n m) : g.rowTableau.entries = g.rowCoefficients := by
  funext i l
  rw [Tableau.entries, rowTableau, get_ofFn]
  cases l using Fin.addCases with
  | left k => rw [get_append_castAdd, unit, get_ofFn, rowCoefficients, Fin.addCases_left]
  | right j =>
    rw [get_append_natAdd, rowCoefficients, Fin.addCases_right]
    rfl

theorem entries_columnTableau (g : Game α n m) :
    g.columnTableau.entries = g.columnCoefficients := by
  funext j l
  rw [Tableau.entries, columnTableau, get_ofFn]
  cases l using Fin.addCases with
  | left i => rw [get_append_castAdd, Table.get_column, columnCoefficients, Fin.addCases_left]
  | right k => rw [get_append_natAdd, unit, get_ofFn, columnCoefficients, Fin.addCases_right]

theorem ofParts?_rowTableau (g : Game α n m) :
    Tableau.ofParts? g.rowCoefficients (List.range n) (List.replicate n 1) = .ok g.rowTableau := by
  have hlevel : g.rowTableau.level = fun _ => 1 := by
    funext i
    rw [Tableau.level, rowTableau, get_ofFn]
  rw [Tableau.ofParts?_eq_ok_iff]
  refine ⟨?_, ?_, g.entries_rowTableau, ?_⟩
  · simp only [rowTableau_label, Fin.val_castAdd]
    exact List.ext_getElem (by simp) (by simp)
  · rw [hlevel, List.ofFn_const]
  · intro i k h
    rw [rowTableau_label, rowTableau_label] at h
    exact Fin.castAdd_injective n m h

theorem ofParts?_columnTableau (g : Game α n m) :
    Tableau.ofParts? g.columnCoefficients (List.range' n m) (List.replicate m 1) =
      .ok g.columnTableau := by
  have hlevel : g.columnTableau.level = fun _ => 1 := by
    funext j
    rw [Tableau.level, columnTableau, get_ofFn]
  rw [Tableau.ofParts?_eq_ok_iff]
  refine ⟨?_, ?_, g.entries_columnTableau, ?_⟩
  · simp only [columnTableau_label, Fin.val_natAdd]
    exact List.ext_getElem (by simp) (by simp)
  · rw [hlevel, List.ofFn_const]
  · intro j k h
    rw [columnTableau_label, columnTableau_label] at h
    exact Fin.natAdd_injective m n h

theorem gap_ne_nil_of_pairAt?_zero {g : Game α n m} {start : Fin n}
    {p : Pair α n (n + m) m (n + m)} (h : g.pairAt? start 0 = some p) : p.gap ≠ [] := by
  obtain ⟨x, hx, rfl⟩ := pairAt?_zero_eq_some_iff.mp h
  rw [(open_of_warmStart hx).gap_eq]
  exact List.cons_ne_nil _ _

end Game

namespace Solver

variable {s : Solver} {g : Game α n m} {f : Fault}

/-- A game has a row to draw, so only a label that is given can be out of range. -/
theorem startingLabel_eq_error_iff (hn : 0 < n) : s.startingLabel n = .error f ↔
    ∃ k, s.start = .label k ∧ n ≤ k.toNat ∧ f = .invalid (.startOutOfRange k.toNat n) := by
  unfold startingLabel
  cases hs : s.start with
  | label k =>
    by_cases hk : k.toNat < n
    · simp [hk]
    · simp [hk, not_lt.mp hk, eq_comm]
  | seed seed => simp [hn]

theorem val_of_startingLabel {start : Fin n} (h : s.startingLabel n = .ok start) {k : UInt64}
    (hk : s.start = .label k) : start.val = k.toNat := by
  unfold startingLabel at h
  rw [hk] at h
  dsimp only at h
  split at h
  · rw [← Except.ok.inj h]
  · cases h

theorem solve_eq_error (h : s.startingLabel n = .error f) : s.solve g = .error f := by
  rw [solve, run, h]

end Solver

/-- A walk that ends before its bound makes no use of a larger one. -/
theorem Pair.walk_eq_of_le {l k : ℕ} {p : Pair α n l m k} {side : Player} {moves : List Move}
    {bound bound' : ℕ} (hle : bound ≤ bound')
    (h : (p.walk side moves bound).ending ≠ .exhausted) :
    p.walk side moves bound' = p.walk side moves bound := by
  -- on the smaller bound: every pivot uses up one of both, and no end but exhaustion needs either
  induction bound generalizing p side moves bound' with
  | zero => exact absurd rfl h
  | succ bound ih =>
    obtain ⟨bound', rfl⟩ : ∃ b, bound' = b + 1 := ⟨bound' - 1, by omega⟩
    unfold walk at h ⊢
    split at h
    · rfl
    · rfl
    · exact ih (Nat.le_of_succ_le_succ hle) h

namespace Solver

variable {g : Game α n m} {start : Fin n} {bound bound' : ℕ}

theorem conclude_eq_of_ending {w : Walk α n (n + m) m (n + m)} (h : w.ending ≠ .exhausted)
    (start bound bound' : ℕ) : conclude start bound w = conclude start bound' w := by
  unfold conclude
  split
  · rfl
  · rfl
  next hending => exact absurd hending h

/-- A run that does not report its bound is the same run under any larger bound, record included. -/
theorem runFrom_eq_of_le (hle : bound ≤ bound')
    (h : ∀ k, (runFrom g start bound).result ≠ .error (.notConverged k)) :
    runFrom g start bound' = runFrom g start bound := by
  unfold runFrom at h ⊢
  split at h
  · rfl
  next swap opened hopened =>
    dsimp only at h
    have hending : (opened.walk .row [] bound).ending ≠ .exhausted := by
      intro hexhausted
      apply h bound
      rw [conclude, hexhausted]
    rw [Pair.walk_eq_of_le hle hending]
    dsimp only
    rw [Walk.events_eq_of_ending hending _ bound' bound,
      conclude_eq_of_ending hending _ bound' bound]

/-- A larger bound changes no answer of a solver but the one that reports the bound, and a path that
outlasts the larger bound outlasts the smaller. -/
theorem solve_of_bound_le (g : Game α n m) (start : Start) {N N' : UInt64} (hle : N ≤ N') :
    ((∀ k, solve ⟨start, N⟩ g ≠ .error (.notConverged k)) →
        solve ⟨start, N'⟩ g = solve ⟨start, N⟩ g) ∧
      ∀ k, solve ⟨start, N'⟩ g = .error (.notConverged k) →
        k = N'.toNat ∧ solve ⟨start, N⟩ g = .error (.notConverged N.toNat) := by
  have hbound : N.toNat ≤ N'.toNat := UInt64.le_iff_toNat_le.mp hle
  cases hstart : startingLabel ⟨start, N⟩ n with
  | error f =>
    have hstart' : startingLabel ⟨start, N'⟩ n = .error f := hstart
    obtain ⟨label, -, -, rfl⟩ := (startingLabel_eq_error_iff g.rows_pos).mp hstart
    rw [solve_eq_error hstart, solve_eq_error hstart']
    exact ⟨fun _ => rfl, by simp⟩
  | ok label =>
    have hstart' : startingLabel ⟨start, N'⟩ n = .ok label := hstart
    rw [solve_eq_runFrom hstart, solve_eq_runFrom hstart']
    constructor
    · intro h
      rw [runFrom_eq_of_le hbound h]
    · intro k hk
      obtain ⟨rfl, p, hp⟩ := result_eq_notConverged_iff.mp hk
      obtain ⟨q, hq⟩ := Game.exists_pairAt?_of_le hp hbound
      exact ⟨rfl, result_eq_notConverged_of_pairAt? hq⟩

/-- The bound of 3 is one too small; from 4 on the answer is the same. -/
theorem solve_of_bound_le_matchingPennies :
    (2 : UInt64) ≤ 3 ∧ solve ⟨.label 0, 3⟩ Game.matchingPennies = .error (.notConverged 3) ∧
      solve ⟨.label 0, 2⟩ Game.matchingPennies = .error (.notConverged 2) ∧
      (4 : UInt64) ≤ 1000 ∧
      (∀ k, solve ⟨.label 0, 4⟩ Game.matchingPennies ≠ .error (.notConverged k)) ∧
      solve ⟨.label 0, 1000⟩ Game.matchingPennies = solve ⟨.label 0, 4⟩ Game.matchingPennies := by
  have hsmall : solve ⟨.label 0, 3⟩ Game.matchingPennies = .error (.notConverged 3) := by cbv
  have hok : (solve ⟨.label 0, 4⟩ Game.matchingPennies).isOk = true := by cbv
  have hlarge : ∀ k, solve ⟨.label 0, 4⟩ Game.matchingPennies ≠ .error (.notConverged k) := by
    intro k hk
    rw [hk] at hok
    cases hok
  have h23 : (2 : UInt64) ≤ 3 := by decide
  have h4 : (4 : UInt64) ≤ 1000 := by decide
  exact ⟨h23, hsmall, ((solve_of_bound_le Game.matchingPennies (.label 0) h23).2 3 hsmall).2, h4,
    hlarge, (solve_of_bound_le Game.matchingPennies (.label 0) h4).1 hlarge⟩

theorem ending_eq_complete_of_conclude {w : Walk α n (n + m) m (n + m)} {e : Equilibrium α n m}
    {start : ℕ} (h : conclude start bound w = .ok e) : w.ending = .complete := by
  unfold conclude at h
  cases hending : w.ending with
  | complete => rfl
  | stuck f =>
    rw [hending] at h
    cases h
  | exhausted =>
    rw [hending] at h
    cases h

/-- An equilibrium is found from the starting label, by at least one pivot and no more than the
bound. -/
theorem pivots_of_result {e : Equilibrium α n m} (h : (runFrom g start bound).result = .ok e) :
    e.start = start ∧ 1 ≤ e.pivots ∧ e.pivots ≤ bound := by
  obtain ⟨f, -, hf⟩ | ⟨v, hv, -, -⟩ := runFrom_cases g start bound
  · rw [hf] at h
    cases h
  · obtain ⟨w, hw, hlt, hresult⟩ := exists_walk_of_pairAt? hv.last bound
    rw [hresult] at h
    have hending := ending_eq_complete_of_conclude h
    have hpos : w.moves.length ≠ 0 := by
      intro hzero
      have hlast := hw.last
      rw [hzero] at hlast
      exact Game.gap_ne_nil_of_pairAt?_zero hlast (hw.complete hending)
    have hle : w.moves.length ≤ bound := (hlt (by simp [hending])).le
    rw [conclude_complete hending] at h
    cases h
    exact ⟨rfl, Nat.one_le_iff_ne_zero.mpr hpos, hle⟩

theorem solve_eq_invalid_iff {s : Solver} : (∃ cause, s.solve g = .error (.invalid cause)) ↔
    ∃ k, s.start = .label k ∧ n ≤ k.toNat := by
  constructor
  · rintro ⟨cause, h⟩
    cases hstart : s.startingLabel n with
    | error f =>
      obtain ⟨k, hk, hle, -⟩ := (startingLabel_eq_error_iff g.rows_pos).mp hstart
      exact ⟨k, hk, hle⟩
    | ok label =>
      rw [solve_eq_runFrom hstart] at h
      exact absurd h (result_runFrom_ne_invalid g label _ cause)
  · rintro ⟨k, hk, hle⟩
    exact ⟨_, solve_eq_error ((startingLabel_eq_error_iff g.rows_pos).mpr ⟨k, hk, hle, rfl⟩)⟩

/-- The first tableaus pass every check, and the answers of a solver are these four.  No other fault
can occur, so that no part of a vector is asked for that it does not have. -/
theorem answers_of_solve (s : Solver) (g : Game α n m) :
    Tableau.ofParts? g.rowCoefficients (List.range n) (List.replicate n 1) =
        .ok g.tableaus.row ∧
      Tableau.ofParts? g.columnCoefficients (List.range' n m) (List.replicate m 1) =
        .ok g.tableaus.column ∧
      ((∃ cause, s.solve g = .error (.invalid cause)) ↔
        ∃ k, s.start = .label k ∧ n ≤ k.toNat) ∧
      ((∃ k, s.start = .label k ∧ s.solve g = .error (.invalid (.startOutOfRange k.toNat n))) ∨
        (∃ e, s.solve g = .ok e ∧ e.start < n ∧ (∀ k, s.start = .label k → e.start = k.toNat) ∧
          1 ≤ e.pivots ∧ e.pivots ≤ s.bound.toNat ∧
          e.profile.row.toList.length = n ∧ e.profile.column.toList.length = m) ∨
        (∃ q < n + m, s.solve g = .error (.degeneratePivot q)) ∨
        s.solve g = .error (.notConverged s.bound.toNat)) := by
  refine ⟨g.ofParts?_rowTableau, g.ofParts?_columnTableau, solve_eq_invalid_iff, ?_⟩
  cases hstart : s.startingLabel n with
  | error f =>
    obtain ⟨k, hk, -, rfl⟩ := (startingLabel_eq_error_iff g.rows_pos).mp hstart
    exact .inl ⟨k, hk, solve_eq_error hstart⟩
  | ok label =>
    rw [solve_eq_runFrom hstart]
    obtain ⟨e, he⟩ | hstuck | ⟨hbound, -⟩ := result_runFrom_cases g label s.bound.toNat
    · obtain ⟨hlabel, hpos, hle⟩ := pivots_of_result he
      refine .inr (.inl ⟨e, he, hlabel.trans_lt label.isLt, fun k hk => ?_, hpos, hle,
        Vector.length_toList, Vector.length_toList⟩)
      rw [hlabel, val_of_startingLabel hstart hk]
    · exact .inr (.inr (.inl hstuck))
    · exact .inr (.inr (.inr hbound))

end Solver

end Bimatrix
