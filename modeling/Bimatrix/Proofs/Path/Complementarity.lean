import Mathlib.Tactic
import Bimatrix.Proofs.Path.Orientation
import Bimatrix.Proofs.Path.Outcome

/-! # Almost complementary pairs

Whatever the arithmetic, a path misses at most one label, the one that the last pivot removed.
While it is missing, the starting label is the only one that is basic twice, and the next pivot
brings the missing label in.  The pivot that removes the starting label closes the path, and then
every label is basic once.
-/
namespace Bimatrix

variable {α : Type} {n m : ℕ}

namespace Pair

variable {p next : Pair α n (n + m) m (n + m)} {start missing : Fin (n + m)} {removed : ℕ}
  {σ : Fin n ⊕ Fin m ≃ Fin (n + m)}

/-- The pair after a pivot that removed a label: closed if that was the starting label, else open
at the label removed. -/
def AfterRemoving (p : Pair α n (n + m) m (n + m)) (start : Fin (n + m)) (removed : ℕ) : Prop :=
  (removed = start.val ∧ ∃ σ, p.Closed σ) ∨
    (removed ≠ start.val ∧ ∃ missing σ, missing.val = removed ∧ p.Open start missing σ)

theorem AfterRemoving.gap_eq (h : p.AfterRemoving start removed) :
    p.gap = if removed = start.val then [] else [removed] := by
  obtain ⟨hstart, σ, hclosed⟩ | ⟨hne, missing, σ, rfl, hopen⟩ := h
  · rw [if_pos hstart, hclosed.gap_eq]
  · rw [if_neg hne, hopen.gap_eq]

theorem Open.basic_twice_iff (h : p.Open start missing σ) {l : ℕ} :
    p.row.isBasic l = true ∧ p.column.isBasic l = true ↔ l = start.val := by
  rw [Tableau.isBasic_iff, Tableau.isBasic_iff]
  constructor
  · rintro ⟨⟨i, hi⟩, j, hj⟩
    rw [h.row] at hi
    rw [h.column] at hj
    split_ifs at hj
    · exact hj.symm
    · exact absurd (Fin.ext (hi.trans hj.symm)) (σ.injective.ne Sum.inl_ne_inr)
  · rintro rfl
    obtain ⟨i, hi⟩ := h.start_row
    obtain ⟨j, hj⟩ := h.missing_column
    constructor
    · exact ⟨i, congrArg Fin.val ((h.row i).trans hi)⟩
    · exact ⟨j, congrArg Fin.val ((h.column j).trans (if_pos hj))⟩

theorem Closed.isBasic_row_eq (h : p.Closed σ) {l : ℕ} (hl : l < n + m) :
    p.row.isBasic l = !p.column.isBasic l := by
  obtain ⟨i | j, hij⟩ := σ.surjective ⟨l, hl⟩
  · have hrow : p.row.isBasic l = true :=
      Tableau.isBasic_iff.mpr ⟨i, congrArg Fin.val ((h.row i).trans hij)⟩
    have hcolumn : p.column.isBasic l = false := by
      rw [Tableau.isBasic_eq_false_iff]
      intro j hj
      rw [h.column] at hj
      exact Sum.inr_ne_inl (σ.injective ((Fin.ext hj).trans hij.symm))
    rw [hrow, hcolumn, Bool.not_false]
  · have hcolumn : p.column.isBasic l = true :=
      Tableau.isBasic_iff.mpr ⟨j, congrArg Fin.val ((h.column j).trans hij)⟩
    have hrow : p.row.isBasic l = false := by
      rw [Tableau.isBasic_eq_false_iff]
      intro i hi
      rw [h.row] at hi
      exact Sum.inl_ne_inr (σ.injective ((Fin.ext hi).trans hij.symm))
    rw [hrow, hcolumn, Bool.not_true]

/-- What a pair looks like after the pivots `last :: earlier` of a path, the latest first. -/
structure AlmostComplementary (p : Pair α n (n + m) m (n + m)) (start : ℕ) (last : Swap)
    (earlier : List Swap) : Prop where
  gap_eq : p.gap = if last.leaving = start then [] else [last.leaving]
  /-- A missing label can enter on either side. -/
  enters : ∀ q ∈ p.gap, q < n + m ∧ p.row.isBasic q = false ∧ p.column.isBasic q = false
  twice : p.gap ≠ [] →
    ∀ l, p.row.isBasic l = true ∧ p.column.isBasic l = true ↔ l = start
  partition : p.gap = [] → ∀ l < n + m, p.row.isBasic l = !p.column.isBasic l
  chain : (last :: earlier).IsChain fun later earlier => later.entering = earlier.leaving
  start_stays : ∀ swap ∈ earlier, swap.leaving ≠ start

theorem AfterRemoving.almostComplementary {last : Swap} {earlier : List Swap}
    (h : p.AfterRemoving start last.leaving)
    (hchain : (last :: earlier).IsChain fun later earlier => later.entering = earlier.leaving)
    (hstays : ∀ swap ∈ earlier, swap.leaving ≠ start.val) :
    p.AlmostComplementary start last earlier where
  gap_eq := h.gap_eq
  enters q hq := mem_gap_iff.mp hq
  twice hgap l := by
    obtain ⟨-, σ, hclosed⟩ | ⟨-, missing, σ, -, hopen⟩ := h
    · exact absurd hclosed.gap_eq hgap
    · exact hopen.basic_twice_iff
  partition hgap l hl := by
    obtain ⟨-, σ, hclosed⟩ | ⟨-, missing, σ, -, hopen⟩ := h
    · exact hclosed.isBasic_row_eq hl
    · rw [hopen.gap_eq] at hgap
      cases hgap
  chain := hchain
  start_stays := hstays

variable [Scalar α]

/-- A move brings the missing label in. -/
theorem Open.advance (h : p.Open start missing σ) {side : Player} {move : Move}
    (hmove : p.advance side = .ok (some (move, next))) :
    move.gap = [missing.val] ∧ move.entering = missing.val ∧
      next.AfterRemoving start move.leaving := by
  have hhead : p.gap.head? = some missing.val := by rw [h.gap_eq, List.head?_cons]
  cases side with
  | row =>
    obtain ⟨q, x, hq, hx, rfl, rfl⟩ := advance_row_eq_ok_iff.mp hmove
    obtain rfl := Option.some.inj (hhead.symm.trans hq)
    refine ⟨h.gap_eq, rfl, ?_⟩
    obtain ⟨hleaving, hclosed⟩ | ⟨hleaving, hopen⟩ := h.row_step hx
    · exact .inl ⟨congrArg Fin.val hleaving, _, hclosed⟩
    · exact .inr ⟨Fin.val_ne_of_ne hleaving, _, _, rfl, hopen⟩
  | column =>
    obtain ⟨q, x, hq, hx, rfl, rfl⟩ := advance_column_eq_ok_iff.mp hmove
    obtain rfl := Option.some.inj (hhead.symm.trans hq)
    refine ⟨h.gap_eq, rfl, ?_⟩
    obtain ⟨hleaving, hclosed⟩ | ⟨hleaving, hopen⟩ := h.column_step hx
    · exact .inl ⟨congrArg Fin.val hleaving, _, hclosed⟩
    · exact .inr ⟨Fin.val_ne_of_ne hleaving, _, _, rfl, hopen⟩

end Pair

structure Traces (start : Fin (n + m)) (warmStart : Swap) (moves : List Move)
    (p : Pair α n (n + m) m (n + m)) : Prop where
  gap_eq : ∀ move ∈ moves, move.gap = [move.entering]
  path : ∃ last earlier, moves.map Move.toSwap ++ [warmStart] = last :: earlier ∧
    p.AfterRemoving start last.leaving ∧
    (last :: earlier).IsChain (fun later earlier => later.entering = earlier.leaving) ∧
    ∀ swap ∈ earlier, swap.leaving ≠ start.val

theorem Event.ofGap_eq_nil {gap : List ℕ} (h : gap.length ≤ 1) : ofGap gap = [] := by
  match gap with
  | [] => rfl
  | [_] => rfl
  | _ :: _ :: _ => simp at h

theorem Traces.wideGap_notMem_events {start : Fin (n + m)} {warmStart : Swap}
    {w : Walk α n (n + m) m (n + m)} (h : Traces start warmStart w.moves w.last) (label bound : ℕ)
    (gap : List ℕ) (entering : ℕ) : .wideGap gap entering ∉ w.events label bound := by
  obtain ⟨last, earlier, -, hshape, -, -⟩ := h.path
  have hlast : Event.ofGap w.last.gap = [] := by
    apply Event.ofGap_eq_nil
    rw [hshape.gap_eq]
    split_ifs <;> simp
  have hmoves : ∀ move ∈ w.moves, Event.ofMove move = [.pivoted move.toSwap] := by
    intro move hmove
    rw [Event.ofMove, h.gap_eq move hmove]
    rfl
  intro hmem
  rcases List.mem_append.mp hmem with hmem | hmem
  · obtain ⟨move, hmove, hevent⟩ := List.mem_flatMap.mp hmem
    rw [hmoves move (List.mem_reverse.mp hmove)] at hevent
    simp at hevent
  · rw [hlast] at hmem
    split at hmem <;> simp at hmem

variable [Scalar α]

theorem Traces.advance {start : Fin (n + m)} {warmStart : Swap} {moves : List Move}
    {p next : Pair α n (n + m) m (n + m)} (h : Traces start warmStart moves p) {side : Player}
    {move : Move} (hmove : p.advance side = .ok (some (move, next))) :
    Traces start warmStart (move :: moves) next := by
  obtain ⟨last, earlier, hswaps, hshape, hchain, hstays⟩ := h.path
  obtain ⟨-, σ, hclosed⟩ | ⟨hne, missing, σ, hmissing, hopen⟩ := hshape
  · rw [Pair.advance_nil hclosed.gap_eq] at hmove
    cases hmove
  · obtain ⟨hgap, hentering, hshape⟩ := hopen.advance hmove
    constructor
    · intro move' hmem
      rcases List.mem_cons.mp hmem with rfl | hmem
      · rw [hgap, hentering]
      · exact h.gap_eq move' hmem
    · refine ⟨move.toSwap, last :: earlier, ?_, hshape, ?_, ?_⟩
      · rw [List.map_cons, List.cons_append, hswaps]
      · exact List.isChain_cons_cons.mpr ⟨hentering.trans hmissing, hchain⟩
      · intro swap hswap
        rcases List.mem_cons.mp hswap with rfl | hswap
        · exact hne
        · exact hstays swap hswap

namespace Game

variable {g : Game α n m} {start : Fin n} {warmStart : Swap}
  {opened : Pair α n (n + m) m (n + m)}

theorem traces_of_warmStart (h : g.tableaus.pivot .column start = .ok (warmStart, opened)) :
    Traces (start.castAdd m) warmStart [] opened := by
  obtain ⟨x, hx, rfl, rfl⟩ := Pair.pivot_column_eq_ok_iff.mp h
  refine ⟨by simp, _, [], rfl, .inr ⟨?_, _, _, rfl, open_of_warmStart hx⟩, List.isChain_singleton _,
    by simp⟩
  exact Fin.val_ne_of_ne (Tableau.leaving_ne (q := start.castAdd m) hx)

theorem traces_walk (h : g.tableaus.pivot .column start = .ok (warmStart, opened)) (bound : ℕ) :
    Traces (start.castAdd m) warmStart (opened.walk .row [] bound).moves
      (opened.walk .row [] bound).last :=
  Pair.walk_invariant (fun _ _ _ _ _ h hmove => h.advance hmove) (traces_of_warmStart h) .row bound

end Game

namespace Solver

variable {g : Game α n m} {start : Fin n}

theorem wideGap_notMem_events_runFrom (g : Game α n m) (start : Fin n) (bound : ℕ) (gap : List ℕ)
    (entering : ℕ) : .wideGap gap entering ∉ (runFrom g start bound).events := by
  unfold runFrom
  split
  next fault hfault => simp
  next warmStart opened hopened =>
    have hnot := (Game.traces_walk hopened bound).wideGap_notMem_events start bound gap entering
    simpa using hnot

theorem result_runFrom_ne_invalid (g : Game α n m) (start : Fin n) (bound : ℕ)
    (cause : InvalidInput) : (runFrom g start bound).result ≠ .error (.invalid cause) := by
  intro h
  obtain ⟨e, he⟩ | ⟨q, -, hq⟩ | ⟨hbound, -⟩ := result_runFrom_cases g start bound
  · rw [he] at h
    cases h
  · rw [hq] at h
    cases h
  · rw [hbound] at h
    cases h

/-- The loop of a run, whatever the arithmetic.  Where it makes `i` moves its last pair is the one
after `i` pivots.  When it looks at a pair the gap holds the label removed last, or nothing if that
was the starting label; so the gap is never wide and no label is refused as invalid. -/
theorem almostComplementary_of_startingLabel {s : Solver} (hs : s.startingLabel n = .ok start) :
    (∀ warmStart opened, g.tableaus.pivot .column start = .ok (warmStart, opened) →
      ∀ i, (∀ p, g.pairAt? start i = some p ↔
          (opened.walk .row [] i).moves.length = i ∧ (opened.walk .row [] i).last = p) ∧
        ∃ last earlier,
          (opened.walk .row [] i).moves.map Move.toSwap ++ [warmStart] = last :: earlier ∧
          (opened.walk .row [] i).last.AlmostComplementary start last earlier) ∧
      (∀ gap entering, .wideGap gap entering ∉ (s.run g).events) ∧
      ∀ cause, s.solve g ≠ .error (.invalid cause) := by
  have hrun : s.run g = runFrom g start s.bound.toNat := by rw [run, hs]
  refine ⟨?_, ?_, ?_⟩
  · intro warmStart opened hopened i
    obtain ⟨last, earlier, hswaps, hshape, hchain, hstays⟩ := (Game.traces_walk hopened i).path
    exact ⟨fun p => Game.pairAt?_eq_some_iff_walk hopened, last, earlier, hswaps,
      hshape.almostComplementary hchain hstays⟩
  · rw [hrun]
    exact wideGap_notMem_events_runFrom g start _
  · rw [solve, hrun]
    exact result_runFrom_ne_invalid g start _

theorem almostComplementary_of_startingLabel_matchingPennies :
    Solver.startingLabel {} 2 = .ok 0 ∧
      ∃ warmStart opened,
        Game.matchingPennies.tableaus.pivot .column 0 = .ok (warmStart, opened) ∧
        (∀ i, (∀ p, Game.matchingPennies.pairAt? 0 i = some p ↔
            (opened.walk .row [] i).moves.length = i ∧ (opened.walk .row [] i).last = p) ∧
          ∃ last earlier,
            (opened.walk .row [] i).moves.map Move.toSwap ++ [warmStart] = last :: earlier ∧
            (opened.walk .row [] i).last.AlmostComplementary 0 last earlier) ∧
        (∀ gap entering, .wideGap gap entering ∉ (Solver.run {} Game.matchingPennies).events) ∧
        ∀ cause, Solver.solve {} Game.matchingPennies ≠ .error (.invalid cause) := by
  have hstart : Solver.startingLabel {} 2 = .ok 0 := rfl
  obtain ⟨hpath, hevents, hresult⟩ :=
    almostComplementary_of_startingLabel (g := Game.matchingPennies) hstart
  have hok : (Game.matchingPennies.tableaus.pivot .column 0).isOk = true := by decide +kernel
  cases hopened : Game.matchingPennies.tableaus.pivot .column 0 with
  | error f =>
    rw [hopened] at hok
    cases hok
  | ok x => exact ⟨hstart, x.1, x.2, rfl, hpath x.1 x.2 hopened, hevents, hresult⟩

end Solver

end Bimatrix
