import Mathlib.Tactic
import Bimatrix.Solver
import Bimatrix.Proofs.Distribution
import Bimatrix.Proofs.Tableau.Basis

/-! # The course of a path

The pairs that a path goes through, by the number of pivots after the warm start, and how a run of
the solver ends among them.
-/
namespace Bimatrix

section Result
variable {ε β γ : Type} {x : Except ε β}

theorem bind_eq_ok {f : β → Except ε γ} {c : γ} :
    x.bind f = .ok c ↔ ∃ a, x = .ok a ∧ f a = .ok c := by
  cases x <;> simp [Except.bind]

theorem map_eq_ok {f : β → γ} {c : γ} : x.map f = .ok c ↔ ∃ a, x = .ok a ∧ f a = c := by
  cases x <;> simp [Except.map]

theorem map_eq_error {f : β → γ} {e : ε} : x.map f = .error e ↔ x = .error e := by
  cases x <;> simp [Except.map]

end Result

variable {α : Type} {n m : ℕ}

/-- The player who pivots after `i` pivots have followed the warm start. -/
def Player.turn : ℕ → Player
  | 0 => row
  | i + 1 => (turn i).other

theorem Pair.mem_gap_iff {l k : ℕ} {p : Pair α n l m k} {q : ℕ} :
    q ∈ p.gap ↔ q < l ∧ p.row.isBasic q = false ∧ p.column.isBasic q = false := by
  simp [gap]

variable [Scalar α]

namespace Pair

variable {l k : ℕ}

def next? (p : Pair α n l m k) (side : Player) : Option (Pair α n l m k) :=
  match p.advance side with
  | .ok (some (_, next)) => some next
  | _ => none

theorem advance_nil {p : Pair α n l m k} (h : p.gap = []) (side : Player) :
    p.advance side = .ok none := by
  unfold advance
  rw [h]

theorem pivot_column_eq_ok_iff {p next : Pair α n l m k} {q : ℕ} {swap : Swap} :
    p.pivot .column q = .ok (swap, next) ↔ ∃ x, p.column.pivot q = .ok x ∧
      swap = ⟨q, x.leaving, x.row⟩ ∧ next = ⟨p.row, x.tableau⟩ := by
  apply bind_eq_ok.trans
  simp [pure, Except.pure, eq_comm]

theorem advance_row {p : Pair α n l m k} {q : ℕ} (h : p.gap.head? = some q) :
    p.advance .row = (p.row.pivot q).map fun x =>
      some (⟨⟨q, x.leaving, x.row⟩, p.gap⟩, ⟨x.tableau, p.column⟩) := by
  unfold advance
  obtain ⟨rest, hgap⟩ := List.head?_eq_some_iff.mp h
  rw [hgap]
  dsimp only [pivot]
  cases p.row.pivot q <;> rfl

theorem advance_column {p : Pair α n l m k} {q : ℕ} (h : p.gap.head? = some q) :
    p.advance .column = (p.column.pivot q).map fun x =>
      some (⟨⟨q, x.leaving, x.row⟩, p.gap⟩, ⟨p.row, x.tableau⟩) := by
  unfold advance
  obtain ⟨rest, hgap⟩ := List.head?_eq_some_iff.mp h
  rw [hgap]
  dsimp only [pivot]
  cases p.column.pivot q <;> rfl

theorem gap_eq_nil_of_advance {p : Pair α n l m k} {side : Player}
    (h : p.advance side = .ok none) : p.gap = [] := by
  cases hgap : p.gap.head? with
  | none => exact List.head?_eq_none_iff.mp hgap
  | some q =>
    cases side with
    | row =>
      rw [advance_row hgap] at h
      obtain ⟨x, -, hx⟩ := map_eq_ok.mp h
      cases hx
    | column =>
      rw [advance_column hgap] at h
      obtain ⟨x, -, hx⟩ := map_eq_ok.mp h
      cases hx

theorem advance_row_eq_ok_iff {p next : Pair α n l m k} {move : Move} :
    p.advance .row = .ok (some (move, next)) ↔ ∃ q x, p.gap.head? = some q ∧
      p.row.pivot q = .ok x ∧ move = ⟨⟨q, x.leaving, x.row⟩, p.gap⟩ ∧
        next = ⟨x.tableau, p.column⟩ := by
  cases hgap : p.gap.head? with
  | none => simp [advance_nil (List.head?_eq_none_iff.mp hgap)]
  | some q =>
    rw [advance_row hgap, map_eq_ok]
    simp [eq_comm]

theorem advance_column_eq_ok_iff {p next : Pair α n l m k} {move : Move} :
    p.advance .column = .ok (some (move, next)) ↔ ∃ q x, p.gap.head? = some q ∧
      p.column.pivot q = .ok x ∧ move = ⟨⟨q, x.leaving, x.row⟩, p.gap⟩ ∧
        next = ⟨p.row, x.tableau⟩ := by
  cases hgap : p.gap.head? with
  | none => simp [advance_nil (List.head?_eq_none_iff.mp hgap)]
  | some q =>
    rw [advance_column hgap, map_eq_ok]
    simp [eq_comm]

/-- Only a missing label is tried, and it can be refused for want of a row only. -/
theorem eq_degeneratePivot_of_advance {p : Pair α n l m l} {side : Player} {f : Fault}
    (h : p.advance side = .error f) : ∃ q ∈ p.gap, f = .degeneratePivot q := by
  cases hgap : p.gap.head? with
  | none =>
    rw [advance_nil (List.head?_eq_none_iff.mp hgap)] at h
    cases h
  | some q =>
    have hmem : q ∈ p.gap := List.mem_of_head? hgap
    obtain ⟨hlt, hrow, hcolumn⟩ := mem_gap_iff.mp hmem
    refine ⟨q, hmem, ?_⟩
    cases side with
    | row =>
      rw [advance_row hgap] at h
      exact Tableau.eq_degeneratePivot_of_pivot hlt hrow (map_eq_error.mp h)
    | column =>
      rw [advance_column hgap] at h
      exact Tableau.eq_degeneratePivot_of_pivot hlt hcolumn (map_eq_error.mp h)

theorem next?_eq_some_iff {p next : Pair α n l m k} {side : Player} :
    p.next? side = some next ↔ ∃ move, p.advance side = .ok (some (move, next)) := by
  unfold next?
  split
  next h => simp [h]
  next h =>
    simp only [reduceCtorEq, false_iff, not_exists]
    exact fun move => h move next

theorem next?_row_eq_some_iff {p next : Pair α n l m k} :
    p.next? .row = some next ↔ ∃ q x, p.gap.head? = some q ∧ p.row.pivot q = .ok x ∧
      next = ⟨x.tableau, p.column⟩ := by
  simp [next?_eq_some_iff, advance_row_eq_ok_iff]

theorem next?_column_eq_some_iff {p next : Pair α n l m k} :
    p.next? .column = some next ↔ ∃ q x, p.gap.head? = some q ∧ p.column.pivot q = .ok x ∧
      next = ⟨p.row, x.tableau⟩ := by
  simp [next?_eq_some_iff, advance_column_eq_ok_iff]

/-- A path goes on from a pair that misses a label when pivots on labels that are not basic
succeed. -/
theorem exists_next? {p : Pair α n (n + m) m (n + m)} (hgap : p.gap ≠ [])
    (hrow : ∀ q < n + m, p.row.isBasic q = false → ∃ x, p.row.pivot q = .ok x)
    (hcolumn : ∀ q < n + m, p.column.isBasic q = false → ∃ x, p.column.pivot q = .ok x)
    (side : Player) : ∃ next, p.next? side = some next := by
  obtain ⟨q, rest, hq⟩ := List.exists_cons_of_ne_nil hgap
  have hhead : p.gap.head? = some q := by rw [hq, List.head?_cons]
  obtain ⟨hlt, hqrow, hqcolumn⟩ := mem_gap_iff.mp (List.mem_of_head? hhead)
  cases side with
  | row =>
    obtain ⟨x, hx⟩ := hrow q hlt hqrow
    exact ⟨_, next?_row_eq_some_iff.mpr ⟨q, x, hhead, hx, rfl⟩⟩
  | column =>
    obtain ⟨x, hx⟩ := hcolumn q hlt hqcolumn
    exact ⟨_, next?_column_eq_some_iff.mpr ⟨q, x, hhead, hx, rfl⟩⟩

def rowWeights (p : Pair α n (n + m) m (n + m)) : Vector α n :=
  Vector.ofFn fun i => p.column.value (i.castAdd m)

def columnWeights (p : Pair α n (n + m) m (n + m)) : Vector α m :=
  Vector.ofFn fun j => p.row.value (j.natAdd n)

theorem profile?_eq (p : Pair α n (n + m) m (n + m)) :
    p.profile? = .ok ⟨distribution p.rowWeights,
      (distribution p.columnWeights).cast (Nat.add_sub_cancel_left ..).symm⟩ := by
  have hrow : distributionOver? p.column.values 0 n = .ok (distribution p.rowWeights) := by
    unfold distributionOver?
    rw [dif_pos ⟨Nat.zero_le _, Nat.le_add_right n m⟩]
    apply congrArg fun w => Except.ok (distribution w)
    ext i hi
    simp [rowWeights, Tableau.values]
  have hcolumn : distributionOver? p.row.values n (n + m) =
      .ok ((distribution p.columnWeights).cast (Nat.add_sub_cancel_left ..).symm) := by
    unfold distributionOver?
    rw [dif_pos ⟨Nat.le_add_right n m, le_rfl⟩, distribution_cast]
    apply congrArg fun w => Except.ok (distribution w)
    ext i hi
    simp [columnWeights, Tableau.values]
  unfold profile?
  rw [hrow, hcolumn]
  rfl

end Pair

namespace Game

/-- The pair after the warm start and `i` more pivots, if the path gets there. -/
def pairAt? (g : Game α n m) (start : ℕ) : ℕ → Option (Pair α n (n + m) m (n + m))
  | 0 =>
    match g.tableaus.pivot .column start with
    | .ok (_, opened) => some opened
    | .error _ => none
  | i + 1 => (g.pairAt? start i).bind fun p => p.next? (Player.turn i)

theorem pairAt?_succ_eq_some_iff {g : Game α n m} {start i : ℕ}
    {next : Pair α n (n + m) m (n + m)} : g.pairAt? start (i + 1) = some next ↔
      ∃ p, g.pairAt? start i = some p ∧ p.next? (Player.turn i) = some next := by
  rw [pairAt?, Option.bind_eq_some_iff]

theorem exists_pairAt?_of_le {g : Game α n m} {start i j : ℕ} {p : Pair α n (n + m) m (n + m)}
    (h : g.pairAt? start j = some p) (hij : i ≤ j) : ∃ q, g.pairAt? start i = some q := by
  induction j generalizing p with
  | zero =>
    obtain rfl := Nat.le_zero.mp hij
    exact ⟨p, h⟩
  | succ j ih =>
    obtain ⟨p', hp', -⟩ := pairAt?_succ_eq_some_iff.mp h
    obtain rfl | hlt := hij.eq_or_lt
    · exact ⟨p, h⟩
    · exact ih hp' (Nat.lt_succ_iff.mp hlt)

theorem lt_of_pairAt?_eq_none {g : Game α n m} {start i length : ℕ}
    {p : Pair α n (n + m) m (n + m)} (hend : g.pairAt? start length = none)
    (h : g.pairAt? start i = some p) : i < length := by
  by_contra hle
  obtain ⟨q, hq⟩ := exists_pairAt?_of_le h (not_lt.mp hle)
  rw [hend] at hq
  cases hq

theorem pivot_tableaus {g : Game α n m} {start : ℕ} {x : Exchange α m (n + m)}
    (hx : g.columnTableau.pivot start = .ok x) : g.tableaus.pivot .column start =
      .ok (⟨start, x.leaving, x.row⟩, ⟨g.rowTableau, x.tableau⟩) :=
  Pair.pivot_column_eq_ok_iff.mpr ⟨x, hx, rfl, rfl⟩

theorem pairAt?_zero_of_pivot {g : Game α n m} {start : ℕ} {warmStart : Swap}
    {opened : Pair α n (n + m) m (n + m)}
    (h : g.tableaus.pivot .column start = .ok (warmStart, opened)) :
    g.pairAt? start 0 = some opened := by
  rw [pairAt?, h]

theorem pairAt?_zero_eq_some_iff {g : Game α n m} {start : ℕ} {p : Pair α n (n + m) m (n + m)} :
    g.pairAt? start 0 = some p ↔
      ∃ x, g.columnTableau.pivot start = .ok x ∧ p = ⟨g.rowTableau, x.tableau⟩ := by
  change (match g.tableaus.pivot .column start with
    | .ok (_, opened) => some opened
    | .error _ => none) = some p ↔ _
  dsimp only [Pair.pivot, tableaus]
  cases hx : g.columnTableau.pivot start with
  | error f => simp [Except.bind, bind]
  | ok x => simp [Except.bind, bind, pure, Except.pure, eq_comm]

/-- Both tableaus of a path come from the first ones by pivots. -/
theorem pivots_of_pairAt? {g : Game α n m} {start i : ℕ} {p : Pair α n (n + m) m (n + m)}
    (h : g.pairAt? start i = some p) :
    g.rowTableau.Pivots p.row ∧ g.columnTableau.Pivots p.column := by
  induction i generalizing p with
  | zero =>
    obtain ⟨x, hx, rfl⟩ := pairAt?_zero_eq_some_iff.mp h
    exact ⟨.refl, .step .refl hx⟩
  | succ i ih =>
    obtain ⟨p, hp, hnext⟩ := pairAt?_succ_eq_some_iff.mp h
    obtain ⟨hrow, hcolumn⟩ := ih hp
    cases hside : Player.turn i with
    | row =>
      rw [hside] at hnext
      obtain ⟨q, x, -, hx, rfl⟩ := Pair.next?_row_eq_some_iff.mp hnext
      exact ⟨hrow.step hx, hcolumn⟩
    | column =>
      rw [hside] at hnext
      obtain ⟨q, x, -, hx, rfl⟩ := Pair.next?_column_eq_some_iff.mp hnext
      exact ⟨hrow, hcolumn.step hx⟩

/-- The pair at which a run of the solver stops. -/
def lastPair? (g : Game α n m) (start bound : ℕ) : Option (Pair α n (n + m) m (n + m)) :=
  match g.tableaus.pivot .column start with
  | .ok (_, opened) => some (opened.walk .row [] bound).last
  | .error _ => none

end Game

/-- A walk whose moves are those of the path from a starting label, and why it ends. -/
structure Walk.Follows (g : Game α n m) (start limit : ℕ) (w : Walk α n (n + m) m (n + m)) :
    Prop where
  last : g.pairAt? start w.moves.length = some w.last
  complete : w.ending = .complete → w.last.gap = []
  stuck : ∀ f, w.ending = .stuck f → w.last.advance (Player.turn w.moves.length) = .error f
  exhausted : w.ending = .exhausted → w.moves.length = limit

/-- A walk follows the path whatever pair it sets out from. -/
theorem Pair.walk_follows {g : Game α n m} {start : ℕ} (bound : ℕ) {moves : List Move}
    {p : Pair α n (n + m) m (n + m)} (h : g.pairAt? start moves.length = some p) :
    (p.walk (Player.turn moves.length) moves bound).Follows g start (moves.length + bound) := by
  induction bound generalizing p moves with
  | zero => exact ⟨h, nofun, nofun, fun _ => rfl⟩
  | succ bound ih =>
    unfold walk
    split
    next f hf => exact ⟨h, nofun, by rintro _ ⟨⟩; exact hf, nofun⟩
    next hnone =>
      exact ⟨h, fun _ => gap_eq_nil_of_advance hnone, nofun, nofun⟩
    next move next hnext =>
      have hstep : g.pairAt? start (move :: moves).length = some next :=
        Game.pairAt?_succ_eq_some_iff.mpr ⟨p, h, by unfold next?; rw [hnext]⟩
      have := ih hstep
      rw [List.length_cons, Nat.add_right_comm] at this
      exact this

theorem Pair.walk_follows_of_warmStart {g : Game α n m} {start : ℕ} (bound : ℕ)
    {p : Pair α n (n + m) m (n + m)} (h : g.pairAt? start 0 = some p) :
    (p.walk .row [] bound).Follows g start bound := by
  have hempty : g.pairAt? start ([] : List Move).length = some p := h
  have hw := walk_follows bound hempty
  rw [List.length_nil, Nat.zero_add] at hw
  exact hw

/-- What every move keeps holds where a walk ends. -/
theorem Pair.walk_invariant {l k : ℕ} {motive : List Move → Pair α n l m k → Prop}
    (hstep : ∀ side moves p move next, motive moves p →
      p.advance side = .ok (some (move, next)) → motive (move :: moves) next)
    {moves : List Move} {p : Pair α n l m k} (h : motive moves p) (side : Player) (bound : ℕ) :
    motive (p.walk side moves bound).moves (p.walk side moves bound).last := by
  induction bound generalizing side moves p with
  | zero => exact h
  | succ bound ih =>
    unfold walk
    split
    · exact h
    · exact h
    next move next hnext => exact ih (hstep side moves p move next h hnext) side.other

namespace Solver

theorem conclude_complete {w : Walk α n (n + m) m (n + m)} (h : w.ending = .complete)
    (start bound : ℕ) : conclude start bound w = .ok
      ⟨⟨distribution w.last.rowWeights, distribution w.last.columnWeights⟩, start,
        w.moves.length⟩ := by
  unfold conclude
  rw [h]
  dsimp only
  rw [Pair.profile?_eq]
  simp [bind, Except.bind, pure, Except.pure]

variable {s : Solver} {g : Game α n m}

theorem solve_eq_runFrom {start : Fin n} (h : s.startingLabel n = .ok start) :
    s.solve g = (runFrom g start s.bound.toNat).result := by
  rw [solve, run, h]

theorem exists_startingLabel_of_solve {e : Equilibrium α n m} (h : s.solve g = .ok e) :
    ∃ start, s.startingLabel n = .ok start := by
  cases hs : s.startingLabel n with
  | error f =>
    rw [solve, run, hs] at h
    cases h
  | ok start => exact ⟨start, rfl⟩

theorem exists_startingLabel (g : Game α n m)
    (h : ∀ label, s.start = .label label → label.toNat < n) :
    ∃ start, s.startingLabel n = .ok start := by
  unfold startingLabel
  cases hs : s.start with
  | label label => exact ⟨_, dif_pos (h label hs)⟩
  | seed seed => exact ⟨_, dif_pos g.rows_pos⟩

/-- A run is the warm start and the walk after it. -/
theorem result_runFrom_eq (g : Game α n m) (start bound : ℕ) : (runFrom g start bound).result =
    match g.columnTableau.pivot start with
    | .error f => .error f
    | .ok x => conclude start bound (Pair.walk ⟨g.rowTableau, x.tableau⟩ .row [] bound) := by
  unfold runFrom
  dsimp only [Pair.pivot, Game.tableaus]
  cases g.columnTableau.pivot start <;> rfl

/-- A run either fails at the warm start or concludes from a walk along the path. -/
theorem runFrom_cases (g : Game α n m) (start bound : ℕ) :
    (∃ f, g.columnTableau.pivot start = .error f ∧ (runFrom g start bound).result = .error f) ∨
      ∃ w : Walk α n (n + m) m (n + m), w.Follows g start bound ∧
        g.lastPair? start bound = some w.last ∧
        (runFrom g start bound).result = conclude start bound w := by
  cases hx : g.columnTableau.pivot start with
  | error f => exact .inl ⟨f, rfl, by rw [result_runFrom_eq, hx]⟩
  | ok x =>
    have hpair := Game.pivot_tableaus hx
    have hopened := Game.pairAt?_zero_of_pivot hpair
    refine .inr ⟨_, Pair.walk_follows_of_warmStart bound hopened, ?_, ?_⟩
    · rw [Game.lastPair?, hpair]
    · rw [result_runFrom_eq, hx]

/-- What an equilibrium is read off: the pair at which the run stops, which misses no label. -/
theorem exists_lastPair_of_solve {e : Equilibrium α n m} (h : s.solve g = .ok e) :
    ∃ p, e.start < n ∧ g.lastPair? e.start s.bound.toNat = some p ∧
      g.pairAt? e.start e.pivots = some p ∧ p.gap = [] ∧
      e.profile = ⟨distribution p.rowWeights, distribution p.columnWeights⟩ := by
  obtain ⟨start, hstart⟩ := exists_startingLabel_of_solve h
  rw [solve_eq_runFrom hstart] at h
  obtain ⟨f, -, hf⟩ | ⟨w, hw, hlast, hresult⟩ := runFrom_cases g start s.bound.toNat
  · rw [hf] at h
    cases h
  · rw [hresult] at h
    cases hending : w.ending with
    | complete =>
      rw [conclude_complete hending] at h
      cases h
      exact ⟨w.last, start.isLt, hlast, hw.last, hw.complete hending, rfl⟩
    | stuck f =>
      rw [conclude, hending] at h
      cases h
    | exhausted =>
      rw [conclude, hending] at h
      cases h

/-- When every pivot of the path succeeds, only the bound can end a run without an equilibrium. -/
theorem solve_of_next? {start : Fin n} (hstart : s.startingLabel n = .ok start)
    (hopen : ∃ x, g.columnTableau.pivot start = .ok x)
    (hnext : ∀ i p, g.pairAt? start i = some p → p.gap ≠ [] →
      ∃ next, p.next? (Player.turn i) = some next) :
    (∃ e, s.solve g = .ok e) ∨ s.solve g = .error (.notConverged s.bound.toNat) ∧
      ∃ p, g.pairAt? start s.bound.toNat = some p := by
  rw [solve_eq_runFrom hstart]
  obtain ⟨f, hf, -⟩ | ⟨w, hw, -, hresult⟩ := runFrom_cases g start s.bound.toNat
  · obtain ⟨x, hx⟩ := hopen
    rw [hx] at hf
    cases hf
  · rw [hresult]
    cases hending : w.ending with
    | complete => exact .inl ⟨_, conclude_complete hending _ _⟩
    | stuck f =>
      have hstuck := hw.stuck f hending
      by_cases hgap : w.last.gap = []
      · rw [Pair.advance_nil hgap] at hstuck
        cases hstuck
      · obtain ⟨next, hn⟩ := hnext _ _ hw.last hgap
        rw [Pair.next?, hstuck] at hn
        cases hn
    | exhausted =>
      refine .inr ⟨by rw [conclude, hending], w.last, ?_⟩
      rw [← hw.exhausted hending]
      exact hw.last

end Solver

end Bimatrix
