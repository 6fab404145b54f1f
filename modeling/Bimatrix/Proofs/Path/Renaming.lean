import Mathlib
import Bimatrix.Proofs.Game.Renaming
import Bimatrix.Proofs.Path.Answers
import Bimatrix.Proofs.Path.Sides

/-! # Paths under other names

A path misses at most one label, so the order of the labels has no say in which label enters.  While
no ratio test is tied, the path of a renamed game from the renamed starting label is the path of the
game under the other names, and so is what a run returns.
-/
namespace Bimatrix

open Equiv

variable {α : Type} {n m : ℕ} {σ : Perm (Fin n)} {τ : Perm (Fin m)}

def Player.rowNames (σ : Perm (Fin n)) (τ : Perm (Fin m)) :
    (side : Player) → Perm (Fin (side.size n m))
  | .row => σ
  | .column => τ

namespace Pair

def rename (σ : Perm (Fin n)) (τ : Perm (Fin m)) (p : Pair α n (n + m) m (n + m)) :
    Pair α n (n + m) m (n + m) :=
  ⟨p.row.rename (labelNames σ τ) σ, p.column.rename (labelNames σ τ) τ⟩

def replace (p : Pair α n (n + m) m (n + m)) :
    (side : Player) → Tableau α (side.size n m) (n + m) → Pair α n (n + m) m (n + m)
  | .row, t => ⟨t, p.column⟩
  | .column, t => ⟨p.row, t⟩

theorem tableau_rename (p : Pair α n (n + m) m (n + m)) (side : Player) :
    (p.rename σ τ).tableau side =
      (p.tableau side).rename (labelNames σ τ) (side.rowNames σ τ) := by
  cases side <;> rfl

theorem replace_rename (p : Pair α n (n + m) m (n + m)) (side : Player)
    (t : Tableau α (side.size n m) (n + m)) : (p.replace side t).rename σ τ =
      (p.rename σ τ).replace side (t.rename (labelNames σ τ) (side.rowNames σ τ)) := by
  cases side <;> rfl

theorem gap_nodup {l k : ℕ} (p : Pair α n l m k) : p.gap.Nodup := List.nodup_range.filter _

/-- The labels missing from a renamed pair are the renamed ones, in some order. -/
theorem gap_rename_perm (p : Pair α n (n + m) m (n + m)) :
    (p.rename σ τ).gap.Perm (p.gap.map (renamed (labelNames σ τ))) := by
  have hmem (q : Fin (n + m)) : (labelNames σ τ q).val ∈ (p.rename σ τ).gap ↔ q.val ∈ p.gap := by
    simp only [gap, List.mem_filter, List.mem_range, Fin.is_lt, true_and, rename,
      Tableau.isBasic_rename]
  have hlt {l : ℕ} {p : Pair α n (n + m) m (n + m)} (hl : l ∈ p.gap) : l < n + m :=
    List.mem_range.mp (List.mem_of_mem_filter hl)
  apply (List.perm_ext_iff_of_nodup (gap_nodup _) _).mpr
  · intro l
    rw [List.mem_map]
    constructor
    · intro hl
      obtain ⟨q, hq⟩ := (labelNames σ τ).surjective ⟨l, hlt hl⟩
      have hql : (labelNames σ τ q).val = l := congrArg Fin.val hq
      rw [← hql, hmem] at hl
      exact ⟨q.val, hl, by rw [renamed_val, hql]⟩
    · rintro ⟨k, hk, rfl⟩
      have hk' := (hmem ⟨k, hlt hk⟩).mpr hk
      rwa [← renamed_val] at hk'
  · apply List.Nodup.map_on _ (gap_nodup p)
    intro k hk l hl heq
    have hval := (renamed_val _ ⟨k, hlt hk⟩).symm.trans (heq.trans (renamed_val _ ⟨l, hlt hl⟩))
    exact congrArg Fin.val ((labelNames σ τ).injective (Fin.ext hval))

theorem advance_eq [Scalar α] {p : Pair α n (n + m) m (n + m)} {q : ℕ}
    (h : p.gap.head? = some q) (side : Player) :
    p.advance side = ((p.tableau side).pivot q).map fun x =>
      some (⟨⟨q, x.leaving, x.row⟩, p.gap⟩, p.replace side x.tableau) := by
  cases side with
  | row => exact advance_row h
  | column => exact advance_column h

def TieFree (p : Pair ℚ n (n + m) m (n + m)) (side : Player) : Prop :=
  ∀ q : Fin (n + m), p.gap.head? = some q.val → (p.tableau side).TieFree q

instance (p : Pair ℚ n (n + m) m (n + m)) (side : Player) : Decidable (p.TieFree side) :=
  inferInstanceAs (Decidable (∀ _, _ → _))

/-- One move under other names: it fails, stops or goes on as the move itself does. -/
theorem advance_rename {p : Pair ℚ n (n + m) m (n + m)} {side : Player}
    (hgap : p.gap ≠ [] → ∃ q : Fin (n + m), p.gap = [q.val]) (htie : p.TieFree side) :
    match p.advance side with
    | .error f => (p.rename σ τ).advance side = .error (f.rename (labelNames σ τ))
    | .ok none => (p.rename σ τ).advance side = .ok none
    | .ok (some (_, next)) =>
      ∃ move, (p.rename σ τ).advance side = .ok (some (move, next.rename σ τ)) := by
  have hperm := p.gap_rename_perm (σ := σ) (τ := τ)
  by_cases hnil : p.gap = []
  · rw [hnil, List.map_nil, List.perm_nil] at hperm
    rw [advance_nil hnil]
    exact advance_nil hperm side
  · obtain ⟨q, hq⟩ := hgap hnil
    rw [hq, List.map_singleton, renamed_val, List.perm_singleton] at hperm
    have hhead : p.gap.head? = some q.val := by rw [hq, List.head?_singleton]
    have hhead' : (p.rename σ τ).gap.head? = some (labelNames σ τ q).val := by
      rw [hperm, List.head?_singleton]
    have hbasic : (p.tableau side).isBasic q.val = false := by
      obtain ⟨-, hrow, hcolumn⟩ := mem_gap_iff.mp (List.mem_of_head? hhead)
      cases side with
      | row => exact hrow
      | column => exact hcolumn
    rw [advance_eq hhead, advance_eq hhead', tableau_rename,
      Tableau.pivot_rename hbasic (htie q hhead)]
    cases (p.tableau side).pivot q.val with
    | error f => rfl
    | ok x => exact ⟨_, by rw [replace_rename]; rfl⟩

end Pair

def Ending.rename (σ : Perm (Fin n)) (τ : Perm (Fin m)) : Ending → Ending
  | .stuck f => .stuck (f.rename (labelNames σ τ))
  | ending => ending

/-- A walk that has gone as far as another, to the renamed pair, and ends for the same reason. -/
structure Walk.Renames (σ : Perm (Fin n)) (τ : Perm (Fin m))
    (w w' : Walk ℚ n (n + m) m (n + m)) : Prop where
  length_eq : w'.moves.length = w.moves.length
  last_eq : w'.last = w.last.rename σ τ
  ending_eq : w'.ending = w.ending.rename σ τ

namespace Game

variable {g : Game ℚ n m} {start : Fin n} {limit bound : ℕ} {p : Pair ℚ n (n + m) m (n + m)}

/-- No ratio test is tied in the warm start and in the first `limit` pivots of the path. -/
structure TieFree (g : Game ℚ n m) (start : Fin n) (limit : ℕ) : Prop where
  warmStart : g.columnTableau.TieFree (start.castAdd m)
  pivot : ∀ i < limit, ∀ p, g.pairAt? start i = some p → p.TieFree (Player.turn i)

/-- It is enough to look at the pairs up to the end of the path. -/
theorem tieFree_of_pairAt?_eq_none (length : ℕ)
    (hwarm : g.columnTableau.TieFree (start.castAdd m))
    (hpath : ∀ i < length, ∀ p ∈ g.pairAt? start i, p.TieFree (Player.turn i))
    (hend : g.pairAt? start length = none) (limit : ℕ) : g.TieFree start limit where
  warmStart := hwarm
  pivot i _ p h := hpath i (lt_of_pairAt?_eq_none hend h) p h

end Game

/-- A walk along a path without ties, step by step under the other names. -/
theorem Pair.walk_rename {g : Game ℚ n m} {start : Fin n} {bound : ℕ} {moves moves' : List Move}
    {p : Pair ℚ n (n + m) m (n + m)} (hp : g.pairAt? start moves.length = some p)
    (hlength : moves'.length = moves.length) (htie : g.TieFree start (moves.length + bound)) :
    (p.walk (Player.turn moves.length) moves bound).Renames σ τ
      ((p.rename σ τ).walk (Player.turn moves.length) moves' bound) := by
  induction bound generalizing p moves moves' with
  | zero => exact ⟨hlength, rfl, rfl⟩
  | succ bound ih =>
    have hstep := advance_rename (σ := σ) (τ := τ) (Game.exists_gap_eq hp)
      (htie.pivot moves.length (by omega) p hp)
    unfold walk
    cases hadvance : p.advance (Player.turn moves.length) with
    | error f =>
      rw [hadvance] at hstep
      rw [hstep]
      exact ⟨hlength, rfl, rfl⟩
    | ok step =>
      cases step with
      | none =>
        rw [hadvance] at hstep
        rw [hstep]
        exact ⟨hlength, rfl, rfl⟩
      | some step =>
        obtain ⟨move, next⟩ := step
        rw [hadvance] at hstep
        obtain ⟨move', hmove'⟩ := hstep
        rw [hmove']
        have hnext : g.pairAt? start (move :: moves).length = some next :=
          Game.pairAt?_succ_eq_some_iff.mpr ⟨p, hp, next?_eq_some_iff.mpr ⟨move, hadvance⟩⟩
        have hcount : (move' :: moves').length = (move :: moves).length := by
          rw [List.length_cons, List.length_cons, hlength]
        have hrest : g.TieFree start ((move :: moves).length + bound) := by
          rw [List.length_cons, Nat.add_right_comm]
          exact htie
        exact ih hnext hcount hrest

theorem Pair.walk_rename_of_warmStart {g : Game ℚ n m} {start : Fin n} {bound : ℕ}
    {p : Pair ℚ n (n + m) m (n + m)} (hp : g.pairAt? start 0 = some p)
    (htie : g.TieFree start bound) :
    (p.walk .row [] bound).Renames σ τ ((p.rename σ τ).walk .row [] bound) := by
  have hempty : g.pairAt? start ([] : List Move).length = some p := hp
  rw [← Nat.zero_add bound] at htie
  exact walk_rename hempty rfl htie

namespace Pair

variable {p : Pair ℚ n (n + m) m (n + m)}

theorem rowWeights_rename (h : Function.Injective p.column.label) :
    (p.rename σ τ).rowWeights = permute σ p.rowWeights := by
  ext i hi
  have hvalue := Tableau.value_rename (ι := labelNames σ τ) (ρ := τ) h
    ((σ.symm ⟨i, hi⟩).castAdd m)
  rw [labelNames_castAdd, apply_symm_apply] at hvalue
  simpa [rowWeights, permute, rename] using hvalue

theorem columnWeights_rename (h : Function.Injective p.row.label) :
    (p.rename σ τ).columnWeights = permute τ p.columnWeights := by
  ext j hj
  have hvalue := Tableau.value_rename (ι := labelNames σ τ) (ρ := σ) h
    ((τ.symm ⟨j, hj⟩).natAdd n)
  rw [labelNames_natAdd, apply_symm_apply] at hvalue
  simpa [columnWeights, permute, rename] using hvalue

end Pair

def Equilibrium.rename (σ : Perm (Fin n)) (τ : Perm (Fin m)) (e : Equilibrium ℚ n m) :
    Equilibrium ℚ n m :=
  ⟨e.profile.rename σ τ, renamed (labelNames σ τ) e.start, e.pivots⟩

theorem renamed_start (start : Fin n) : renamed (labelNames σ τ) start.val = (σ start).val :=
  (renamed_val (labelNames σ τ) (start.castAdd m)).trans
    (congrArg Fin.val (labelNames_castAdd start))

def renameResult (σ : Perm (Fin n)) (τ : Perm (Fin m)) :
    Except Fault (Equilibrium ℚ n m) → Except Fault (Equilibrium ℚ n m)
  | .ok e => .ok (e.rename σ τ)
  | .error f => .error (f.rename (labelNames σ τ))

namespace Solver

variable {g : Game ℚ n m} {start : Fin n} {bound : ℕ}

theorem conclude_rename {w w' : Walk ℚ n (n + m) m (n + m)} (h : w.Renames σ τ w')
    (hw : g.pairAt? start w.moves.length = some w.last) :
    conclude (σ start).val bound w' = renameResult σ τ (conclude start.val bound w) := by
  obtain ⟨hrow, hcolumn⟩ := Game.inverseForm_of_pairAt? hw
  have hending := h.ending_eq
  cases hcase : w.ending with
  | complete =>
    rw [hcase] at hending
    rw [conclude_complete hcase, conclude_complete hending, h.last_eq, h.length_eq,
      Pair.rowWeights_rename hcolumn.label_injective,
      Pair.columnWeights_rename hrow.label_injective, distribution_permute, distribution_permute,
      ← renamed_start (τ := τ)]
    rfl
  | stuck f =>
    rw [hcase] at hending
    rw [conclude, conclude, hcase, hending]
    rfl
  | exhausted =>
    rw [hcase] at hending
    rw [conclude, conclude, hcase, hending]
    rfl

theorem result_runFrom_rename (htie : g.TieFree start bound) :
    (runFrom (g.rename σ τ) (σ start).val bound).result =
      renameResult σ τ (runFrom g start.val bound).result := by
  have hpivot := Tableau.pivot_rename (ι := labelNames σ τ) (ρ := τ)
    (g.columnTableau_isBasic_start start) htie.warmStart
  rw [labelNames_castAdd, ← g.columnTableau_rename] at hpivot
  simp only [Fin.val_castAdd] at hpivot
  rw [result_runFrom_eq, result_runFrom_eq, hpivot]
  cases hx : g.columnTableau.pivot start.val with
  | error f => rfl
  | ok x =>
    have hopened : g.pairAt? start 0 = some ⟨g.rowTableau, x.tableau⟩ :=
      Game.pairAt?_zero_eq_some_iff.mpr ⟨x, hx, rfl⟩
    have hrenamed : Pair.rename σ τ ⟨g.rowTableau, x.tableau⟩ =
        ⟨(g.rename σ τ).rowTableau, x.tableau.rename (labelNames σ τ) τ⟩ := by
      rw [g.rowTableau_rename]
      rfl
    have hwalk := Pair.walk_rename_of_warmStart (σ := σ) (τ := τ) hopened htie
    rw [hrenamed] at hwalk
    exact conclude_rename hwalk (Pair.walk_follows_of_warmStart bound hopened).last

/-- While no ratio test of its run is tied, a game and the same game under other names for its rows
and columns are solved alike.  From the renamed starting label the run takes as many pivots to the
renamed profile, or it fails in the same way, a label for which no row can leave being renamed. -/
theorem solve_rename {s s' : Solver} (σ : Perm (Fin n)) (τ : Perm (Fin m))
    (hs : s.startingLabel n = .ok start) (hs' : s'.startingLabel n = .ok (σ start))
    (hbound : s'.bound = s.bound) (htie : g.TieFree start s.bound.toNat) :
    (∀ e, s.solve g = .ok e →
        s'.solve (g.rename σ τ) = .ok ⟨e.profile.rename σ τ, (σ start).val, e.pivots⟩) ∧
      ∀ f, s.solve g = .error f →
        s'.solve (g.rename σ τ) = .error (f.rename (labelNames σ τ)) := by
  have hresult := result_runFrom_rename (σ := σ) (τ := τ) htie
  rw [← solve_eq_runFrom hs, ← hbound, ← solve_eq_runFrom hs'] at hresult
  rw [hresult]
  constructor
  · intro e he
    have hstart : e.start = start.val := by
      rw [solve_eq_runFrom hs] at he
      exact (pivots_of_result he).1
    rw [he, ← renamed_start (τ := τ), ← hstart]
    rfl
  · intro f hf
    rw [hf]
    rfl

theorem solve_rename_fivePivots :
    (⟨.label 1, 1000⟩ : Solver).startingLabel 2 = .ok 1 ∧
      (⟨.label 0, 1000⟩ : Solver).startingLabel 2 = .ok (Equiv.swap 0 1 1) ∧
      Game.fivePivots.TieFree 1 1000 ∧
      solve ⟨.label 1, 1000⟩ Game.fivePivots = .ok ⟨⟨#v[2 / 3, 1 / 3], #v[0, 3 / 5, 2 / 5]⟩, 1, 5⟩ ∧
      solve ⟨.label 0, 1000⟩ (Game.fivePivots.rename (Equiv.swap 0 1) (finRotate 3)) =
        .ok ⟨⟨#v[1 / 3, 2 / 3], #v[2 / 5, 0, 3 / 5]⟩, 0, 5⟩ := by
  have hstart : (⟨.label 1, 1000⟩ : Solver).startingLabel 2 = .ok 1 := rfl
  have hstart' : (⟨.label 0, 1000⟩ : Solver).startingLabel 2 = .ok (Equiv.swap 0 1 1) := rfl
  have htie : Game.fivePivots.TieFree 1 1000 :=
    Game.tieFree_of_pairAt?_eq_none 6 (by decide +kernel) (by decide +kernel)
      (Option.isNone_iff_eq_none.mp (by decide +kernel)) 1000
  have hsolve : solve ⟨.label 1, 1000⟩ Game.fivePivots =
      .ok ⟨⟨#v[2 / 3, 1 / 3], #v[0, 3 / 5, 2 / 5]⟩, 1, 5⟩ := by cbv
  have hrenamed := (solve_rename (Equiv.swap 0 1) (finRotate 3) hstart hstart' rfl htie).1 _ hsolve
  refine ⟨hstart, hstart', htie, hsolve, hrenamed.trans ?_⟩
  cbv

end Solver

end Bimatrix
