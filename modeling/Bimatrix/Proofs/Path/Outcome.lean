import Mathlib
import Bimatrix.Proofs.Game.Systems
import Bimatrix.Proofs.Path.Course

/-! # How a run ends

A run of the solver is decided by where the path ends and by the bound.  The loop looks at the pair
before it pivots, so with a bound of `N` it sees the pairs after fewer than `N` pivots: a path that
is closed by its last allowed pivot is not seen to be closed.
-/
namespace Bimatrix

variable {α : Type} [Scalar α] {n m : ℕ}

namespace Game

variable {g : Game α n m} {start i j : ℕ} {p q : Pair α n (n + m) m (n + m)}

/-- No pair of the path comes after one from which no pivot is made. -/
theorem le_of_next?_eq_none (hp : g.pairAt? start i = some p)
    (hend : p.next? (Player.turn i) = none) (hq : g.pairAt? start j = some q) : j ≤ i := by
  by_contra hlt
  obtain ⟨next, hnext⟩ := exists_pairAt?_of_le hq (not_le.mp hlt)
  obtain ⟨p', hp', hstep⟩ := pairAt?_succ_eq_some_iff.mp hnext
  obtain rfl := Option.some.inj (hp.symm.trans hp')
  rw [hend] at hstep
  cases hstep

end Game

theorem Pair.next?_eq_none_of_gap {l k : ℕ} {p : Pair α n l m k} (h : p.gap = [])
    (side : Player) : p.next? side = none := by
  rw [next?, advance_nil h]

theorem Pair.length_walk_lt {l k : ℕ} {p : Pair α n l m k} {side : Player} {moves : List Move}
    {bound : ℕ} (h : (p.walk side moves bound).ending ≠ .exhausted) :
    (p.walk side moves bound).moves.length < moves.length + bound := by
  induction bound generalizing p side moves with
  | zero => exact absurd rfl h
  | succ bound ih =>
    unfold walk at h ⊢
    split at h
    · exact Nat.lt_add_of_pos_right (Nat.succ_pos bound)
    · exact Nat.lt_add_of_pos_right (Nat.succ_pos bound)
    next move next _ =>
      have hlt := ih h
      rw [List.length_cons] at hlt
      omega

theorem Pair.length_walk_nil_lt {l k : ℕ} {p : Pair α n l m k} {side : Player} {bound : ℕ}
    (h : (p.walk side [] bound).ending ≠ .exhausted) :
    (p.walk side [] bound).moves.length < bound := by
  have hlt := length_walk_lt h
  rwa [List.length_nil, Nat.zero_add] at hlt

namespace Walk

variable {g : Game α n m} {start limit : ℕ} {w : Walk α n (n + m) m (n + m)}
  {p : Pair α n (n + m) m (n + m)}

theorem Follows.next?_eq_none (h : w.Follows g start limit) (hending : w.ending ≠ .exhausted) :
    w.last.next? (Player.turn w.moves.length) = none := by
  cases hcase : w.ending with
  | complete => exact Pair.next?_eq_none_of_gap (h.complete hcase) _
  | stuck f => rw [Pair.next?, h.stuck f hcase]
  | exhausted => exact absurd hcase hending

/-- A walk that stops short of its limit has met the end of the path. -/
theorem Follows.ending_eq_exhausted (h : w.Follows g start limit)
    (hlt : w.ending ≠ .exhausted → w.moves.length < limit) (hp : g.pairAt? start limit = some p) :
    w.ending = .exhausted := by
  by_contra hne
  have hle := Game.le_of_next?_eq_none h.last (h.next?_eq_none hne) hp
  exact absurd (hlt hne) (not_lt.mpr hle)

end Walk

/-- The pair after `i` pivots is the last pair of the loop whose bound is `i`, where that loop makes
`i` moves. -/
theorem Game.pairAt?_eq_some_iff_walk {g : Game α n m} {start : ℕ} {warmStart : Swap}
    {opened : Pair α n (n + m) m (n + m)}
    (h : g.tableaus.pivot .column start = .ok (warmStart, opened)) {i : ℕ}
    {p : Pair α n (n + m) m (n + m)} : g.pairAt? start i = some p ↔
      (opened.walk .row [] i).moves.length = i ∧ (opened.walk .row [] i).last = p := by
  have hw := Pair.walk_follows_of_warmStart i (pairAt?_zero_of_pivot h)
  constructor
  · intro hp
    have hlength := hw.exhausted (hw.ending_eq_exhausted Pair.length_walk_nil_lt hp)
    refine ⟨hlength, Option.some.inj ?_⟩
    rw [← hw.last, hlength, hp]
  · rintro ⟨hlength, rfl⟩
    rw [← hw.last, hlength]

namespace Solver

variable {g : Game α n m} {start : Fin n} {i bound : ℕ} {p : Pair α n (n + m) m (n + m)}

/-- Where the warm start succeeds, a run concludes from a walk that has followed the path for
`bound` pivots or to an earlier end. -/
theorem exists_walk_of_pairAt? (h : g.pairAt? start i = some p) (bound : ℕ) :
    ∃ w : Walk α n (n + m) m (n + m), w.Follows g start bound ∧
      (w.ending ≠ .exhausted → w.moves.length < bound) ∧
      (runFrom g start bound).result = conclude start bound w := by
  obtain ⟨opened, hopened⟩ := Game.exists_pairAt?_of_le h (Nat.zero_le i)
  obtain ⟨x, hx, rfl⟩ := Game.pairAt?_zero_eq_some_iff.mp hopened
  refine ⟨_, Pair.walk_follows_of_warmStart bound hopened, Pair.length_walk_nil_lt, ?_⟩
  rw [result_runFrom_eq, hx]

/-- A run finds an equilibrium, is stuck for want of a row, or exhausts its bound. -/
theorem result_runFrom_cases (g : Game α n m) (start : Fin n) (bound : ℕ) :
    (∃ e, (runFrom g start bound).result = .ok e) ∨
      (∃ q < n + m, (runFrom g start bound).result = .error (.degeneratePivot q)) ∨
      (runFrom g start bound).result = .error (.notConverged bound) ∧
        ∃ p, g.pairAt? start bound = some p := by
  obtain ⟨f, hf, hresult⟩ | ⟨w, hw, -, hresult⟩ := runFrom_cases g start bound
  · have hlt : start.val < n + m := by omega
    have hfault := Tableau.eq_degeneratePivot_of_pivot hlt (g.columnTableau_isBasic_start start) hf
    exact .inr (.inl ⟨start, hlt, by rw [hresult, hfault]⟩)
  · rw [hresult]
    cases hending : w.ending with
    | complete => exact .inl ⟨_, conclude_complete hending _ _⟩
    | stuck f =>
      obtain ⟨q, hgap, hq⟩ := Pair.eq_degeneratePivot_of_advance (hw.stuck f hending)
      exact .inr (.inl ⟨q, (Pair.mem_gap_iff.mp hgap).1, by rw [conclude, hending, hq]⟩)
    | exhausted =>
      refine .inr (.inr ⟨by rw [conclude, hending], w.last, ?_⟩)
      rw [← hw.exhausted hending]
      exact hw.last

theorem result_eq_notConverged_of_pairAt? (h : g.pairAt? start bound = some p) :
    (runFrom g start bound).result = .error (.notConverged bound) := by
  obtain ⟨w, hw, hlt, hresult⟩ := exists_walk_of_pairAt? h bound
  rw [hresult, conclude, hw.ending_eq_exhausted hlt h]

theorem result_eq_notConverged_iff {k : ℕ} :
    (runFrom g start bound).result = .error (.notConverged k) ↔
      k = bound ∧ ∃ p, g.pairAt? start k = some p := by
  constructor
  · intro h
    obtain ⟨e, he⟩ | ⟨q, -, hq⟩ | ⟨hbound, hpair⟩ := result_runFrom_cases g start bound
    · rw [he] at h
      cases h
    · rw [hq] at h
      cases h
    · rw [hbound, Except.error.injEq, Fault.notConverged.injEq] at h
      rw [← h]
      exact ⟨rfl, hpair⟩
  · rintro ⟨rfl, p, hp⟩
    exact result_eq_notConverged_of_pairAt? hp

theorem result_eq_ok_of_gap (h : g.pairAt? start i = some p) (hgap : p.gap = [])
    (hi : i < bound) : (runFrom g start bound).result =
      .ok ⟨⟨distribution p.rowWeights, distribution p.columnWeights⟩, start, i⟩ := by
  obtain ⟨w, hw, -, hresult⟩ := exists_walk_of_pairAt? h bound
  have hend := Pair.next?_eq_none_of_gap hgap (Player.turn i)
  have hle : w.moves.length ≤ i := Game.le_of_next?_eq_none h hend hw.last
  have hne : w.ending ≠ .exhausted := by
    intro hending
    have hlimit := hw.exhausted hending
    omega
  have hlength : w.moves.length = i :=
    le_antisymm hle (Game.le_of_next?_eq_none hw.last (hw.next?_eq_none hne) h)
  have hlast : w.last = p := by
    apply Option.some.inj
    rw [← hw.last, hlength, h]
  cases hending : w.ending with
  | complete => rw [hresult, conclude_complete hending, hlast, hlength]
  | stuck f =>
    have hstuck := hw.stuck f hending
    rw [hlast, Pair.advance_nil hgap] at hstuck
    cases hstuck
  | exhausted => exact absurd hending hne

/-- A run reports that it has not converged exactly when the path makes as many pivots as the bound
allows.  Each of them was made where a label was missing, but the pair after the last is not looked
at; a path that closes with fewer pivots than that gives its equilibrium. -/
theorem notConverged_iff_path_reaches_bound {s : Solver} (hs : s.startingLabel n = .ok start) :
    (∀ k, s.solve g = .error (.notConverged k) ↔
        k = s.bound.toNat ∧ ∃ p, g.pairAt? start k = some p) ∧
      (∀ k, s.solve g = .error (.notConverged k) →
        ∀ i < k, ∃ p, g.pairAt? start i = some p ∧ p.gap ≠ []) ∧
      ∀ i < s.bound.toNat, ∀ p, g.pairAt? start i = some p → p.gap = [] →
        s.solve g = .ok ⟨⟨distribution p.rowWeights, distribution p.columnWeights⟩, start, i⟩ := by
  rw [solve_eq_runFrom hs]
  refine ⟨fun k => result_eq_notConverged_iff, ?_, ?_⟩
  · intro k hk i hi
    obtain ⟨-, q, hq⟩ := result_eq_notConverged_iff.mp hk
    obtain ⟨p, hp⟩ := Game.exists_pairAt?_of_le hq hi.le
    refine ⟨p, hp, ?_⟩
    intro hgap
    have hle := Game.le_of_next?_eq_none hp (Pair.next?_eq_none_of_gap hgap _) hq
    omega
  · intro i hi p hp hgap
    exact result_eq_ok_of_gap hp hgap hi

theorem notConverged_iff_path_reaches_bound_matchingPennies :
    (⟨.label 0, 4⟩ : Solver).startingLabel 2 = .ok 0 ∧
      (∀ k, (⟨.label 0, 4⟩ : Solver).solve Game.matchingPennies = .error (.notConverged k) ↔
        k = 4 ∧ ∃ p, Game.matchingPennies.pairAt? 0 k = some p) ∧
      ∃ p, Game.matchingPennies.pairAt? 0 3 = some p ∧ p.gap = [] ∧
        (⟨.label 0, 4⟩ : Solver).solve Game.matchingPennies =
          .ok ⟨⟨distribution p.rowWeights, distribution p.columnWeights⟩, 0, 3⟩ := by
  have hstart : (⟨.label 0, 4⟩ : Solver).startingLabel 2 = .ok 0 := rfl
  have hgap : (Game.matchingPennies.pairAt? 0 3).map Pair.gap = some [] := by cbv
  obtain ⟨p, hp, hgap⟩ := Option.map_eq_some_iff.mp hgap
  obtain ⟨hreaches, -, hsolve⟩ :=
    notConverged_iff_path_reaches_bound (g := Game.matchingPennies) hstart
  exact ⟨hstart, hreaches, p, hp, hgap, hsolve 3 (by decide) p hp hgap⟩

/-- After the three pivots that the bound allows no label is missing, and yet the run reports that
it has not converged. -/
theorem notConverged_at_closed_pair :
    (⟨.label 0, 3⟩ : Solver).solve Game.matchingPennies = .error (.notConverged 3) ∧
      ∃ p, Game.matchingPennies.pairAt? 0 3 = some p ∧ p.gap = [] := by
  have hgap : (Game.matchingPennies.pairAt? 0 3).map Pair.gap = some [] := by cbv
  obtain ⟨p, hp, hgap⟩ := Option.map_eq_some_iff.mp hgap
  exact ⟨by cbv, p, hp, hgap⟩

end Solver

end Bimatrix
