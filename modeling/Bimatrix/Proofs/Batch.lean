import Mathlib.Tactic
import Bimatrix.Batch
import Bimatrix.Proofs.Game.Invariance
import Bimatrix.Proofs.Path.Answers

/-! # Accounts of batches

A game of a stream is fixed by its number, and its outcome adds the same counts to every report.  So
a report is the sum over its games, and the report on fewer games is a part of it.  A batch is
refused at its first game or at none.
-/
namespace Bimatrix

variable {α : Type} [Scalar α] {n m : ℕ}

/-- Without a strategy for each player there is no game, whatever the payoffs. -/
theorem Game.ofPayoffs?_eq_noStrategies {row column : Fin n → Fin m → α} (h : n = 0 ∨ m = 0) :
    (Game.ofPayoffs? row column : Except Fault (Game α n m)) =
      .error (.invalid (.noStrategies n m)) := by
  unfold ofPayoffs?
  rw [dif_pos ⟨rfl, rfl⟩, dif_neg]
  omega

namespace Batch

/-- The report on the games of two others. -/
instance : Add Batch where
  add b c := ⟨b.verified + c.verified, b.refuted + c.refuted, b.degenerate + c.degenerate,
    b.unfinished + c.unfinished, b.pivots + c.pivots⟩

/-- No count is larger. -/
instance : LE Batch where
  le b c := b.verified ≤ c.verified ∧ b.refuted ≤ c.refuted ∧ b.degenerate ≤ c.degenerate ∧
    b.unfinished ≤ c.unfinished ∧ b.pivots ≤ c.pivots

theorem le_add_right (b c : Batch) : b ≤ b + c :=
  ⟨Nat.le_add_right .., Nat.le_add_right .., Nat.le_add_right .., Nat.le_add_right ..,
    Nat.le_add_right ..⟩

theorem add_def (b c : Batch) : b + c = ⟨b.verified + c.verified, b.refuted + c.refuted,
    b.degenerate + c.degenerate, b.unfinished + c.unfinished, b.pivots + c.pivots⟩ := rfl

theorem add_empty (b : Batch) : b + {} = b := rfl

/-- Every one of `games` games is counted once, and pivots only where a game was solved, `bound` at
most. -/
structure Accounts (b : Batch) (games bound : ℕ) : Prop where
  total : b.verified + b.refuted + b.degenerate + b.unfinished = games
  pivots : b.pivots ≤ bound * (b.verified + b.refuted)

variable {b c : Batch} {games games' bound : ℕ}

theorem accounts_empty (bound : ℕ) : Accounts {} 0 bound := ⟨rfl, Nat.zero_le _⟩

theorem Accounts.add (hb : b.Accounts games bound) (hc : c.Accounts games' bound) :
    (b + c).Accounts (games + games') bound := by
  constructor
  · have htotal := hb.total
    have htotal' := hc.total
    simp only [add_def]
    omega
  · calc b.pivots + c.pivots
        ≤ bound * (b.verified + b.refuted) + bound * (c.verified + c.refuted) :=
          Nat.add_le_add hb.pivots hc.pivots
      _ = bound * (b.verified + c.verified + (b.refuted + c.refuted)) := by ring

section Outcome

variable {g : Game α n m} {result : Except Fault (Equilibrium α n m)} {s : Solver} {f : Fault}

/-- An outcome adds the same counts to every report. -/
theorem record_add (b c : Batch) (g : Game α n m) (result : Except Fault (Equilibrium α n m)) :
    (b + c).record g result = (c.record g result).map (b + ·) := by
  unfold record
  split
  · dsimp only
    split_ifs <;> simp [Except.map, add_def, Nat.add_assoc]
  · rfl
  · rfl
  · rfl

theorem accounts_record (hbound : ∀ e, result = .ok e → e.pivots ≤ bound)
    (h : record {} g result = .ok b) : b.Accounts 1 bound := by
  unfold record at h
  split at h
  next e =>
    have hle := hbound e rfl
    dsimp only at h
    split_ifs at h <;> cases h <;> exact ⟨by simp, by simpa using hle⟩
  next =>
    cases h
    exact ⟨rfl, Nat.zero_le _⟩
  next =>
    cases h
    exact ⟨rfl, Nat.zero_le _⟩
  next => cases h

theorem pivots_le_of_solve {e : Equilibrium α n m} (h : s.solve g = .ok e) :
    e.pivots ≤ s.bound.toNat := by
  cases hstart : s.startingLabel n with
  | error f =>
    rw [Solver.solve_eq_error hstart] at h
    cases h
  | ok start =>
    rw [Solver.solve_eq_runFrom hstart] at h
    exact (Solver.pivots_of_result h).2.2

/-- Only a label out of range is no outcome. -/
theorem record_solve_eq_error_iff : b.record g (s.solve g) = .error f ↔
    ∃ k, s.start = .label k ∧ n ≤ k.toNat ∧ f = .invalid (.startOutOfRange k.toNat n) := by
  rw [← Solver.startingLabel_eq_error_iff g.rows_pos]
  cases hstart : s.startingLabel n with
  | error f' =>
    obtain ⟨k, -, -, rfl⟩ := (Solver.startingLabel_eq_error_iff g.rows_pos).mp hstart
    rw [Solver.solve_eq_error hstart]
    simp [record]
  | ok start =>
    rw [Solver.solve_eq_runFrom hstart]
    obtain ⟨e, h⟩ | ⟨q, -, h⟩ | ⟨h, -⟩ := Solver.result_runFrom_cases g start s.bound.toNat
    · rw [h, record]
      dsimp only
      split_ifs <;> simp
    · simp [h, record]
    · simp [h, record]

end Outcome

def drawn {payoff : ℕ → α} (hfinite : ∀ i, Scalar.nonFinite? (payoff i) = none) (hn : 0 < n)
    (hm : 0 < m) (i : ℕ) : Game α n m where
  row := Table.ofFn fun r c => payoff (i * (2 * (n * m)) + (r * m + c))
  column := Table.ofFn fun r c => payoff (i * (2 * (n * m)) + (n * m + (r * m + c)))
  rows_pos := hn
  columns_pos := hm
  row_finite _ _ := by rw [Table.entry_ofFn, hfinite]
  column_finite _ _ := by rw [Table.entry_ofFn, hfinite]

/-- How a batch of finite payoffs is refused, whatever the payoffs. -/
inductive Refuses (s : Solver) (n m : ℕ) : Fault → Prop
  | tooLarge : Table.storable n m = false → Refuses s n m .tooLarge
  | noStrategies : Table.storable n m = true → n = 0 ∨ m = 0 →
      Refuses s n m (.invalid (.noStrategies n m))
  | startOutOfRange {k : UInt64} : Table.storable n m = true → 0 < n → 0 < m →
      s.start = .label k → n ≤ k.toNat → Refuses s n m (.invalid (.startOutOfRange k.toNat n))

theorem exists_refuses_iff {s : Solver} : (∃ f, Refuses s n m f) ↔
    Table.storable n m = false ∨ n = 0 ∨ m = 0 ∨ ∃ k, s.start = .label k ∧ n ≤ k.toNat := by
  constructor
  · rintro ⟨f, hlarge | ⟨-, hzero⟩ | ⟨-, -, -, hk, hle⟩⟩
    · exact .inl hlarge
    · exact .inr (hzero.imp_right .inl)
    · exact .inr (.inr (.inr ⟨_, hk, hle⟩))
  · intro h
    cases hst : Table.storable n m with
    | false => exact ⟨_, .tooLarge hst⟩
    | true =>
      by_cases hzero : n = 0 ∨ m = 0
      · exact ⟨_, .noStrategies hst hzero⟩
      · obtain hlarge | hn | hm | ⟨k, hk, hle⟩ := h
        · simp [hst] at hlarge
        · exact absurd (.inl hn) hzero
        · exact absurd (.inr hm) hzero
        · exact ⟨_, .startOutOfRange hst (by omega) (by omega) hk hle⟩

theorem Refuses.fault_eq {s : Solver} {f : Fault} (h : Refuses s n m f) :
    Table.storable n m = false ∧ f = .tooLarge ∨
      Table.storable n m = true ∧ ∃ cause, f = .invalid cause := by
  cases h with
  | tooLarge hlarge => exact .inl ⟨hlarge, rfl⟩
  | noStrategies hst => exact .inr ⟨hst, _, rfl⟩
  | startOutOfRange hst => exact .inr ⟨hst, _, rfl⟩

section Draw

variable {payoff : ℕ → α} {s : Solver} {f : Fault} {i : ℕ}

theorem game?_eq_tooLarge (h : Table.storable n m = false) :
    game? payoff n m i = .error .tooLarge := by
  rw [game?, Table.checkShape, h]
  rfl

theorem game?_of_storable (h : Table.storable n m = true) : game? payoff n m i =
    Game.ofPayoffs?
      (fun (r : Fin n) (c : Fin m) => payoff (i * (2 * (n * m)) + (r * m + c)))
      (fun (r : Fin n) (c : Fin m) => payoff (i * (2 * (n * m)) + (n * m + (r * m + c)))) := by
  rw [game?, Table.checkShape, h]
  rfl

variable (hfinite : ∀ i, Scalar.nonFinite? (payoff i) = none)

theorem game?_eq_drawn (h : Table.storable n m = true) (hn : 0 < n) (hm : 0 < m) (i : ℕ) :
    game? payoff n m i = .ok (drawn hfinite hn hm i) := by
  have hrow : (drawn hfinite hn hm i).row.entry =
      fun (r : Fin n) (c : Fin m) => payoff (i * (2 * (n * m)) + (r * m + c)) :=
    funext₂ (Table.entry_ofFn _)
  have hcolumn : (drawn hfinite hn hm i).column.entry =
      fun (r : Fin n) (c : Fin m) => payoff (i * (2 * (n * m)) + (n * m + (r * m + c))) :=
    funext₂ (Table.entry_ofFn _)
  rw [game?_of_storable h, ← hrow, ← hcolumn, Game.ofPayoffs?_entry]

theorem step_eq_record (h : Table.storable n m = true) (hn : 0 < n) (hm : 0 < m) (i : ℕ)
    (b : Batch) : step s payoff n m i b =
      b.record (drawn hfinite hn hm i) (s.solve (drawn hfinite hn hm i)) := by
  rw [step, game?_eq_drawn hfinite h hn hm]
  rfl

include hfinite in
theorem refuses_of_step (h : step s payoff n m i b = .error f) : Refuses s n m f := by
  cases hst : Table.storable n m with
  | false =>
    rw [step, game?_eq_tooLarge hst] at h
    cases h
    exact .tooLarge hst
  | true =>
    by_cases hzero : n = 0 ∨ m = 0
    · rw [step, game?_of_storable hst, Game.ofPayoffs?_eq_noStrategies hzero] at h
      cases h
      exact .noStrategies hst hzero
    · obtain ⟨hn, hm⟩ : 0 < n ∧ 0 < m := by omega
      rw [step_eq_record hfinite hst hn hm] at h
      obtain ⟨k, hk, hle, rfl⟩ := record_solve_eq_error_iff.mp h
      exact .startOutOfRange hst hn hm hk hle

include hfinite in
theorem step_of_refuses (h : Refuses s n m f) : step s payoff n m i b = .error f := by
  cases h with
  | tooLarge hlarge =>
    rw [step, game?_eq_tooLarge hlarge]
    rfl
  | noStrategies hst hzero =>
    rw [step, game?_of_storable hst, Game.ofPayoffs?_eq_noStrategies hzero]
    rfl
  | startOutOfRange hst hn hm hk hle =>
    rw [step_eq_record hfinite hst hn hm]
    exact record_solve_eq_error_iff.mpr ⟨_, hk, hle, rfl⟩

include hfinite in
/-- A game is refused for its shape or for the starting label, and so are all games or none. -/
theorem step_eq_error_iff : step s payoff n m i b = .error f ↔ Refuses s n m f :=
  ⟨refuses_of_step hfinite, step_of_refuses hfinite⟩

end Draw

section Run

variable {payoff : ℕ → α} {s : Solver} {f : Fault} {i : ℕ}

theorem step_add (s : Solver) (payoff : ℕ → α) (n m i : ℕ) (b c : Batch) :
    step s payoff n m i (b + c) = (step s payoff n m i c).map (b + ·) := by
  unfold step
  cases game? payoff n m i with
  | error f => rfl
  | ok g => exact record_add b c g (s.solve g)

theorem accounts_step (h : step s payoff n m i {} = .ok b) : b.Accounts 1 s.bound.toNat := by
  obtain ⟨g, -, hrecord⟩ := bind_eq_ok.mp h
  exact accounts_record (fun _ => pivots_le_of_solve) hrecord

theorem runFrom_succ (s : Solver) (payoff : ℕ → α) (n m i : ℕ) (b : Batch) (games : ℕ) :
    runFrom s payoff n m i b (games + 1) =
      (step s payoff n m i b).bind fun c => runFrom s payoff n m (i + 1) c games := by
  rw [runFrom]
  cases step s payoff n m i b <;> rfl

/-- A report is carried along. -/
theorem runFrom_add (s : Solver) (payoff : ℕ → α) (n m i : ℕ) (b c : Batch) (games : ℕ) :
    runFrom s payoff n m i (b + c) games = (runFrom s payoff n m i c games).map (b + ·) := by
  induction games generalizing i c with
  | zero => rfl
  | succ games ih =>
    rw [runFrom_succ, runFrom_succ, step_add]
    cases step s payoff n m i c with
    | error f => rfl
    | ok d => exact ih (i + 1) d

/-- The games in two parts. -/
theorem runFrom_append (s : Solver) (payoff : ℕ → α) (n m i : ℕ) (b : Batch) (j k : ℕ) :
    runFrom s payoff n m i b (j + k) =
      (runFrom s payoff n m i b j).bind fun c => runFrom s payoff n m (i + j) c k := by
  induction j generalizing i b with
  | zero =>
    rw [Nat.zero_add]
    rfl
  | succ j ih =>
    have hi : i + (j + 1) = i + 1 + j := by omega
    rw [Nat.add_right_comm, hi, runFrom_succ, runFrom_succ]
    cases step s payoff n m i b with
    | error f => rfl
    | ok c => exact ih (i + 1) c

/-- The report on the first games is a part of the report; the rest is that on the other games. -/
theorem exists_add_of_runFrom {j k : ℕ} (h : runFrom s payoff n m i b (j + k) = .ok c) :
    ∃ d rest, runFrom s payoff n m i b j = .ok d ∧
      runFrom s payoff n m (i + j) {} k = .ok rest ∧ c = d + rest := by
  rw [runFrom_append] at h
  obtain ⟨d, hd, hrest⟩ := bind_eq_ok.mp h
  rw [← add_empty d, runFrom_add] at hrest
  obtain ⟨rest, hsuffix, rfl⟩ := map_eq_ok.mp hrest
  exact ⟨d, rest, hd, hsuffix, rfl⟩

theorem accounts_runFrom (h : runFrom s payoff n m i {} games = .ok b) :
    b.Accounts games s.bound.toNat := by
  -- on the number of games, the last of which is taken off: it adds what its step gives
  induction games generalizing b with
  | zero =>
    cases h
    exact accounts_empty _
  | succ games ih =>
    obtain ⟨c, d, hc, hd, rfl⟩ := exists_add_of_runFrom h
    rw [runFrom_succ] at hd
    obtain ⟨e, hstep, hd⟩ := bind_eq_ok.mp hd
    cases hd
    exact (ih hc).add (accounts_step hstep)

variable (hfinite : ∀ i, Scalar.nonFinite? (payoff i) = none)

include hfinite in
/-- A batch is refused at its first game or not at all. -/
theorem runFrom_eq_error_iff :
    runFrom s payoff n m i b games = .error f ↔ 1 ≤ games ∧ Refuses s n m f := by
  induction games generalizing i b with
  | zero => simp [runFrom]
  | succ games ih =>
    rw [runFrom_succ, ← step_eq_error_iff (i := i) (b := b) hfinite]
    cases hstep : step s payoff n m i b with
    | error f' => simp [Except.bind]
    | ok c =>
      change runFrom s payoff n m (i + 1) c games = .error f ↔ _
      rw [ih, ← step_eq_error_iff (i := i) (b := b) hfinite, hstep]
      simp

theorem runFrom_eq_foldlM (h : Table.storable n m = true) (hn : 0 < n) (hm : 0 < m) (i : ℕ)
    (b : Batch) (games : ℕ) : runFrom s payoff n m i b games =
      (List.range' i games).foldlM
        (fun b i => b.record (drawn hfinite hn hm i) (s.solve (drawn hfinite hn hm i))) b := by
  induction games generalizing i b with
  | zero => rfl
  | succ games ih =>
    rw [runFrom_succ, step_eq_record hfinite h hn hm, List.range'_succ, List.foldlM_cons]
    cases b.record (drawn hfinite hn hm i) (s.solve (drawn hfinite hn hm i)) with
    | error f => rfl
    | ok c => exact ih (i + 1) c

end Run

section Read

variable {β : Type}

/-- The next entry of a stream; the state is the number of entries that have been read. -/
def next (stream : ℕ → β) : StateM ℕ β := fun i => (stream i, i + 1)

def nextTable (stream : ℕ → β) (n m : ℕ) : StateM ℕ (Table β n m) :=
  Vector.ofFnM fun _ => Vector.ofFnM fun _ => next stream

/-- A vector of readings that each take `k` entries. -/
theorem run_ofFnM {x : StateM ℕ β} {value : ℕ → β} {k : ℕ}
    (hx : ∀ i, x.run i = (value i, i + k)) (n i : ℕ) :
    (Vector.ofFnM fun _ : Fin n => x).run i =
      (Vector.ofFn fun r : Fin n => value (i + r * k), i + n * k) := by
  induction n with
  | zero =>
    rw [Vector.ofFnM_zero, Nat.zero_mul]
    rfl
  | succ n ih =>
    rw [Vector.ofFnM_succ, StateT.run_bind, ih, Vector.ofFn_succ, Nat.succ_mul, ← Nat.add_assoc]
    change (x >>= fun a => pure (Vector.push _ a)).run (i + n * k) = _
    rw [StateT.run_bind, hx]
    rfl

theorem run_nextTable (stream : ℕ → β) (n m i : ℕ) : (nextTable stream n m).run i =
    (Table.ofFn fun r c => stream (i + (r * m + c)), i + n * m) := by
  have hnext : ∀ i, (next stream).run i = (stream i, i + 1) := fun _ => rfl
  have hrow : ∀ i, (Vector.ofFnM fun _ : Fin m => next stream).run i =
      (Vector.ofFn fun c : Fin m => stream (i + c), i + m) := by
    intro i
    rw [run_ofFnM hnext]
    simp only [Nat.mul_one]
  rw [nextTable, run_ofFnM hrow]
  simp only [Nat.add_assoc]
  rfl

variable {ε σ γ : Type} {x : ExceptT ε (StateM σ) β} {i j : σ}

theorem run_lift_bind (x : StateM σ β) (f : β → ExceptT ε (StateM σ) γ) (i : σ) :
    ((liftM x : ExceptT ε (StateM σ) β) >>= f).run.run i = (f (x.run i).1).run.run (x.run i).2 := rfl

theorem run_ofExcept (x : Except ε β) (i : σ) :
    (ofExcept x : ExceptT ε (StateM σ) β).run.run i = (x, i) := by
  cases x <;> rfl

theorem ofExcept_bind (x : Except ε β) (f : β → Except ε γ) :
    (ofExcept x >>= fun a => ofExcept (f a) : ExceptT ε (StateM σ) γ) = ofExcept (x >>= f) := by
  cases x <;> rfl

theorem run_bind_of_error {e : ε} (h : x.run.run i = (.error e, j))
    (f : β → ExceptT ε (StateM σ) γ) : (x >>= f).run.run i = (.error e, j) := by
  rw [ExceptT.run_bind, StateT.run_bind, h]
  rfl

theorem run_bind_of_ok {a : β} (h : x.run.run i = (.ok a, j)) (f : β → ExceptT ε (StateM σ) γ) :
    (x >>= f).run.run i = (f a).run.run j := by
  rw [ExceptT.run_bind, StateT.run_bind, h]
  rfl

end Read

def nextGame (s : Solver) (payoff : ℕ → α) (n m : ℕ) (b : Batch) :
    ExceptT Fault (StateM ℕ) Batch := do
  ofExcept (Table.checkShape n m)
  let row ← nextTable payoff n m
  let column ← nextTable payoff n m
  let g : Game α n m ← ofExcept (Game.ofPayoffs? row.entry column.entry)
  ofExcept (b.record g (s.solve g))

def read (s : Solver) (payoff : ℕ → α) (n m games : ℕ) : ExceptT Fault (StateM ℕ) Batch := do
  let mut b : Batch := {}
  for _ in List.range games do
    b ← nextGame s payoff n m b
  return b

theorem read_eq_foldlM (s : Solver) (payoff : ℕ → α) (n m games : ℕ) :
    read s payoff n m games =
      (List.range games).foldlM (fun b _ => nextGame s payoff n m b) {} := by
  simp [read]

section Reader

variable {payoff : ℕ → α} {s : Solver} {i : ℕ}

/-- The game that comes next is the one with its number, and leaves the reader at the game after
it. -/
theorem run_nextGame (h : Table.storable n m = true) (s : Solver) (payoff : ℕ → α) (i : ℕ)
    (b : Batch) : (nextGame s payoff n m b).run.run (i * (2 * (n * m))) =
      (step s payoff n m i b, (i + 1) * (2 * (n * m))) := by
  have hshape : Table.checkShape n m = .ok () := if_pos h
  have hend : i * (2 * (n * m)) + n * m + n * m = (i + 1) * (2 * (n * m)) := by ring
  rw [nextGame, hshape, run_bind_of_ok (run_ofExcept _ _), run_lift_bind, run_lift_bind,
    run_nextTable]
  dsimp only
  rw [run_nextTable, hend, ofExcept_bind, run_ofExcept, step, game?_of_storable h]
  simp only [funext₂ (Table.entry_ofFn _), Nat.add_assoc]

theorem run_nextGame_of_tooLarge (h : Table.storable n m = false) (j : ℕ) :
    (nextGame s payoff n m b).run.run j = (.error .tooLarge, j) := by
  have hshape : Table.checkShape n m = .error .tooLarge := if_neg (by simp [h])
  rw [nextGame, hshape]
  exact run_bind_of_error (run_ofExcept _ _) _

theorem run_foldlM_nextGame (s : Solver) (payoff : ℕ → α) (n m : ℕ) (l : List ℕ) (i : ℕ)
    (b : Batch) :
    ((l.foldlM (fun b _ => nextGame s payoff n m b) b).run.run (i * (2 * (n * m)))).1 =
        runFrom s payoff n m i b l.length ∧
      ∀ c, runFrom s payoff n m i b l.length = .ok c →
        ((l.foldlM (fun b _ => nextGame s payoff n m b) b).run.run (i * (2 * (n * m)))).2 =
          (i + l.length) * (2 * (n * m)) := by
  induction l generalizing i b with
  | nil => exact ⟨rfl, fun _ _ => rfl⟩
  | cons a l ih =>
    rw [List.foldlM_cons, List.length_cons, runFrom_succ]
    cases hst : Table.storable n m with
    | false =>
      rw [run_bind_of_error (run_nextGame_of_tooLarge hst _), step, game?_eq_tooLarge hst]
      exact ⟨rfl, fun _ h => by cases h⟩
    | true =>
      have hrun := run_nextGame hst s payoff i b
      cases hstep : step s payoff n m i b with
      | error f =>
        rw [hstep] at hrun
        rw [run_bind_of_error hrun]
        exact ⟨rfl, fun _ h => by cases h⟩
      | ok c =>
        have hlength : i + (l.length + 1) = i + 1 + l.length := by omega
        rw [hstep] at hrun
        rw [run_bind_of_ok hrun, hlength]
        exact ih (i + 1) c

/-- A batch that reads along reports the same, and has read its games and nothing else. -/
theorem run_read (s : Solver) (payoff : ℕ → α) (n m games : ℕ) :
    ((read s payoff n m games).run.run 0).1 = run s payoff n m games ∧
      ∀ b, run s payoff n m games = .ok b →
        ((read s payoff n m games).run.run 0).2 = games * (2 * (n * m)) := by
  have h := run_foldlM_nextGame s payoff n m (List.range games) 0 {}
  rw [List.length_range, Nat.zero_mul, Nat.zero_add] at h
  rw [read_eq_foldlM]
  exact h

end Reader

/-- A batch of finite payoffs loses and invents nothing.  It fails exactly if there is a game to draw
and the shape cannot be stored, a player has no strategy or the starting label is out of range; the
input is invalid unless the shape is too large.  Else every game is counted once, with pivots for
solved games only, and the report on fewer games is a part of the report, the rest being the report
on the other games.  The games are drawn without regard to the solver and to earlier outcomes, also
when the stream is read as the batch goes along. -/
theorem run_report {payoff : ℕ → α} (hfinite : ∀ i, Scalar.nonFinite? (payoff i) = none)
    (s : Solver) (n m games : ℕ) :
    ((∃ f, run s payoff n m games = .error f) ↔
        1 ≤ games ∧ (Table.storable n m = false ∨ n = 0 ∨ m = 0 ∨
          ∃ k, s.start = .label k ∧ n ≤ k.toNat)) ∧
      (∀ f, run s payoff n m games = .error f →
        Table.storable n m = false ∧ f = .tooLarge ∨
          Table.storable n m = true ∧ ∃ cause, f = .invalid cause) ∧
      (∀ b, run s payoff n m games = .ok b →
        b.verified + b.refuted + b.degenerate + b.unfinished = games ∧
          b.pivots ≤ s.bound.toNat * (b.verified + b.refuted) ∧
          ∀ k ≤ games, ∃ first rest, run s payoff n m k = .ok first ∧
            runFrom s payoff n m k {} (games - k) = .ok rest ∧ b = first + rest ∧ first ≤ b) ∧
      (∀ (hn : 0 < n) (hm : 0 < m), Table.storable n m = true →
        run s payoff n m games = (List.range games).foldlM
          (fun b i => b.record (drawn hfinite hn hm i) (s.solve (drawn hfinite hn hm i))) {}) ∧
      ((read s payoff n m games).run.run 0).1 = run s payoff n m games ∧
      ∀ b, run s payoff n m games = .ok b →
        ((read s payoff n m games).run.run 0).2 = games * (2 * (n * m)) := by
  refine ⟨?_, ?_, ?_, ?_, run_read s payoff n m games⟩
  · simp only [run, runFrom_eq_error_iff hfinite, exists_and_left, exists_refuses_iff]
  · intro f hf
    exact ((runFrom_eq_error_iff hfinite).mp hf).2.fault_eq
  · intro b hb
    have haccounts := accounts_runFrom hb
    refine ⟨haccounts.total, haccounts.pivots, ?_⟩
    intro k hk
    rw [run, ← Nat.add_sub_cancel' hk] at hb
    obtain ⟨first, rest, hfirst, hrest, rfl⟩ := exists_add_of_runFrom hb
    rw [Nat.zero_add] at hrest
    exact ⟨first, rest, hfirst, hrest, rfl, le_add_right first rest⟩
  · intro hn hm hst
    rw [run, runFrom_eq_foldlM hfinite hst hn hm, List.range_eq_range']

def solvedThenPennies (i : ℕ) : ℚ :=
  [3, 0, 5, 1, 3, 5, 0, 1, 1, -1, -1, 1, -1, 1, 1, -1].getD i 0

theorem run_report_solvedThenPennies :
    (∀ i, Scalar.nonFinite? (solvedThenPennies i) = none) ∧
      run ⟨.label 0, 3⟩ solvedThenPennies 2 2 2 = .ok ⟨1, 0, 0, 1, 2⟩ ∧
      1 + 0 + 0 + 1 = 2 ∧ 2 ≤ 3 * (1 + 0) ∧
      (∃ first rest, run ⟨.label 0, 3⟩ solvedThenPennies 2 2 1 = .ok first ∧
        runFrom ⟨.label 0, 3⟩ solvedThenPennies 2 2 1 {} 1 = .ok rest ∧
        (⟨1, 0, 0, 1, 2⟩ : Batch) = first + rest ∧ first ≤ ⟨1, 0, 0, 1, 2⟩) ∧
      ((read ⟨.label 0, 3⟩ solvedThenPennies 2 2 2).run.run 0).2 = 16 ∧
      (∃ f, run ⟨.label 2, 3⟩ solvedThenPennies 2 2 2 = .error f) := by
  have hfinite : ∀ i, Scalar.nonFinite? (solvedThenPennies i) = none := fun _ => rfl
  have hrun : run ⟨.label 0, 3⟩ solvedThenPennies 2 2 2 = .ok ⟨1, 0, 0, 1, 2⟩ := by cbv
  obtain ⟨-, -, hreport, -, -, hread⟩ := run_report hfinite ⟨.label 0, 3⟩ 2 2 2
  obtain ⟨htotal, hpivots, hparts⟩ := hreport _ hrun
  obtain ⟨hfails, -⟩ := run_report hfinite ⟨.label 2, 3⟩ 2 2 2
  exact ⟨hfinite, hrun, htotal, hpivots, hparts 1 (by decide), hread _ hrun,
    hfails.mpr ⟨by decide, .inr (.inr (.inr ⟨2, rfl, by decide⟩))⟩⟩

/-- A player without strategies is not told so where the other has 2⁶³ of them. -/
theorem run_fails_tooLarge :
    (∀ i, Scalar.nonFinite? (solvedThenPennies i) = none) ∧
      run {} solvedThenPennies 0 0x8000000000000000 1 = .error .tooLarge ∧
      ∀ cause, run {} solvedThenPennies 0 0x8000000000000000 1 ≠ .error (.invalid cause) := by
  have hrun : run {} solvedThenPennies 0 0x8000000000000000 1 = .error .tooLarge := by
    rw [run, runFrom, step, game?_eq_tooLarge (by decide)]
    rfl
  exact ⟨fun _ => rfl, hrun, by rw [hrun]; simp⟩

end Batch

end Bimatrix
