import Mathlib
import Bimatrix.Solver
import Bimatrix.Proofs.Game.Systems
import Bimatrix.Proofs.Payoff

/-! # Games with the same equilibria

An increasing affine map of the payoffs, common to both players, multiplies all their differences by
one positive number, so it keeps best responses.  Normalization is such a map, and it undoes every
other: games that differ by one have the same first tableaus and the same runs.
-/
namespace Bimatrix

variable {n m : ℕ}

namespace Table

variable {α β γ : Type}

theorem ofFn_entry (t : Table α n m) : ofFn t.entry = t := by
  ext i hi j hj
  simp [ofFn, entry, get_eq_getElem]

theorem entries_mapEntries (f : α → β) (t : Table α n m) :
    (t.mapEntries f).entries = t.entries.map f := by
  simp [entries, mapEntries, Vector.toList_map, List.map_flatMap, List.flatMap_map]

theorem mapEntries_mapEntries (f : α → β) (h : β → γ) (t : Table α n m) :
    (t.mapEntries f).mapEntries h = t.mapEntries (h ∘ f) := by
  simp [mapEntries, Function.comp_def]

end Table

namespace Game

section Accepted
variable {α : Type} [Scalar α]

/-- The payoffs of a game pass the checks and make it again. -/
theorem ofPayoffs?_entry (g : Game α n m) : ofPayoffs? g.row.entry g.column.entry = .ok g := by
  have hfinite {t : Table α n m} (h : ∀ i j, Scalar.nonFinite? (t.entry i j) = none) :
      t.nonFinite? = none := by
    simp [Table.nonFinite?, h]
  have hrow : Table.ofFn g.row.entry = g.row := Table.ofFn_entry _
  have hcolumn : Table.ofFn (fun i j => g.column.entry (i.cast rfl) (j.cast rfl)) = g.column :=
    Table.ofFn_entry _
  unfold ofPayoffs?
  rw [dif_pos ⟨rfl, rfl⟩, dif_pos ⟨g.rows_pos, g.columns_pos⟩]
  dsimp only
  split
  next cause hcause =>
    rw [hrow, hfinite g.row_finite] at hcause
    cases hcause
  next cause _ hcause =>
    rw [hcolumn, hfinite g.column_finite] at hcause
    cases hcause
  next =>
    congr 1
    cases g
    simp only [mk.injEq]
    exact ⟨hrow, hcolumn⟩

end Accepted

def map (f : ℚ → ℚ) (g : Game ℚ n m) : Game ℚ n m where
  row := g.row.mapEntries f
  column := g.column.mapEntries f
  rows_pos := g.rows_pos
  columns_pos := g.columns_pos
  row_finite _ _ := rfl
  column_finite _ _ := rfl

theorem ofPayoffs?_map (f : ℚ → ℚ) (g : Game ℚ n m) :
    ofPayoffs? (fun i j => f (g.row.entry i j)) (fun i j => f (g.column.entry i j)) =
      .ok (g.map f) := by
  have hrow : (fun i j => f (g.row.entry i j)) = (g.map f).row.entry := by
    funext i j
    exact (Table.entry_mapEntries f g.row i j).symm
  have hcolumn : (fun i j => f (g.column.entry i j)) = (g.map f).column.entry := by
    funext i j
    exact (Table.entry_mapEntries f g.column i j).symm
  rw [hrow, hcolumn, ofPayoffs?_entry]

theorem payoffs_map (f : ℚ → ℚ) (g : Game ℚ n m) : (g.map f).payoffs = g.payoffs.map f := by
  simp only [payoffs, map, Table.entries_mapEntries, List.map_append]

variable {f : ℚ → ℚ} {c : ℚ}

theorem sum_sub_sum_of_sub_eq {k : ℕ} {u v w : Fin k → ℚ}
    (h : ∀ j, f (u j) - f (v j) = c * (u j - v j)) :
    ∑ j, f (u j) * w j - ∑ j, f (v j) * w j = c * (∑ j, u j * w j - ∑ j, v j * w j) := by
  rw [← Finset.sum_sub_distrib, ← Finset.sum_sub_distrib, Finset.mul_sum]
  apply Finset.sum_congr rfl
  intro j _
  rw [← sub_mul, h, ← sub_mul, mul_assoc]

/-- A map that multiplies all differences of payoffs, and the slack, by one positive number keeps
the verdict on every profile. -/
theorem isEquilibrium_map {g : Game ℚ n m} (hc : 0 < c)
    (hf : ∀ u ∈ g.payoffs, ∀ v ∈ g.payoffs, f u - f v = c * (u - v)) (s : Profile ℚ n m) {ε : ℚ}
    (hslack : ε * (g.map f).scale = c * (ε * g.scale)) :
    (g.map f).isEquilibrium s ε = g.isEquilibrium s ε := by
  have hrow (i k : Fin n) : ((g.map f).rowPayoffs s).get i - ((g.map f).rowPayoffs s).get k =
      c * ((g.rowPayoffs s).get i - (g.rowPayoffs s).get k) := by
    simp only [rowPayoffs_get, map, Table.entry_mapEntries]
    exact sum_sub_sum_of_sub_eq fun j =>
      hf _ (g.row_entry_mem_payoffs i j) _ (g.row_entry_mem_payoffs k j)
  have hcolumn (j k : Fin m) :
      ((g.map f).columnPayoffs s).get j - ((g.map f).columnPayoffs s).get k =
        c * ((g.columnPayoffs s).get j - (g.columnPayoffs s).get k) := by
    simp only [columnPayoffs_get, map, Table.entry_mapEntries]
    exact sum_sub_sum_of_sub_eq fun i =>
      hf _ (g.column_entry_mem_payoffs i j) _ (g.column_entry_mem_payoffs i k)
  have hresponse : isBestResponse s.row ((g.map f).rowPayoffs s) ε (ε * (g.map f).scale) =
      isBestResponse s.row (g.rowPayoffs s) ε (ε * g.scale) := by
    rw [hslack]
    exact isBestResponse_eq_of_sub_eq hc hrow
  have hresponse' : isBestResponse s.column ((g.map f).columnPayoffs s) ε (ε * (g.map f).scale) =
      isBestResponse s.column (g.columnPayoffs s) ε (ε * g.scale) := by
    rw [hslack]
    exact isBestResponse_eq_of_sub_eq hc hcolumn
  exact congrArg₂ (· && ·) hresponse hresponse'

end Game

namespace PayoffRange

variable {us : List ℚ} {low high u v a : ℚ}

theorem normalize_low (hlow : us.min? = some low) (hhigh : us.max? = some high) :
    (ofPayoffs us).normalize low = 1 := by
  rw [normalize_eq, ofPayoffs_eq hlow hhigh]
  split_ifs
  · rfl
  · rw [sub_self, zero_div, zero_add]

theorem normalize_high (hlow : us.min? = some low) (hhigh : us.max? = some high)
    (hne : low ≠ high) : (ofPayoffs us).normalize high = 2 := by
  have hspan : high / 2 - low / 2 ≠ 0 := by
    intro h
    apply hne
    linarith
  rw [normalize_eq, ofPayoffs_eq hlow hhigh]
  dsimp only
  rw [if_neg hspan, div_self hspan]
  norm_num

/-- The map multiplies all differences of payoffs by one positive number. -/
theorem exists_normalize_sub_eq (hlow : us.min? = some low) (hhigh : us.max? = some high) :
    ∃ c, 0 < c ∧ ∀ u ∈ us, ∀ v ∈ us,
      (ofPayoffs us).normalize u - (ofPayoffs us).normalize v = c * (u - v) := by
  have hleast := List.min?_eq_some_iff.mp hlow
  have hgreatest := List.max?_eq_some_iff.mp hhigh
  obtain heq | hlt := (hgreatest.2 low hleast.1).eq_or_lt
  · refine ⟨1, one_pos, fun u hu v hv => ?_⟩
    -- all payoffs are the same
    have huv : u = v := by
      linarith [hleast.2 u hu, hgreatest.2 u hu, hleast.2 v hv, hgreatest.2 v hv]
    rw [huv, sub_self, sub_self, mul_zero]
  · refine ⟨(high - low)⁻¹, inv_pos.mpr (sub_pos.mpr hlt), fun u hu v hv => ?_⟩
    rw [sub_eq_mul_normalize_sub hlow hhigh hu hv, inv_mul_cancel_left₀ (sub_pos.mpr hlt).ne']

theorem lt_iff_of_sub_eq {c u v u' v' : ℚ} (hc : 0 < c) (h : u' - v' = c * (u - v)) :
    u < v ↔ u' < v' :=
  calc u < v ↔ c * (u - v) < c * 0 := by rw [mul_lt_mul_iff_right₀ hc, sub_neg]
    _ ↔ u' < v' := by rw [mul_zero, ← h, sub_neg]

end PayoffRange

namespace Game

/-- A payoff of either player. -/
def payoff (g : Game ℚ n m) : Player → Fin n → Fin m → ℚ
  | .row => g.row.entry
  | .column => g.column.entry

theorem mem_payoffs_iff {g : Game ℚ n m} {u : ℚ} :
    u ∈ g.payoffs ↔ ∃ player i j, g.payoff player i j = u := by
  simp only [payoffs, List.mem_append, Table.mem_entries_iff]
  constructor
  · rintro (⟨i, j, h⟩ | ⟨i, j, h⟩)
    · exact ⟨.row, i, j, h⟩
    · exact ⟨.column, i, j, h⟩
  · rintro ⟨player, i, j, h⟩
    cases player with
    | row => exact .inl ⟨i, j, h⟩
    | column => exact .inr ⟨i, j, h⟩

theorem payoff_mem_payoffs (g : Game ℚ n m) (player : Player) (i : Fin n) (j : Fin m) :
    g.payoff player i j ∈ g.payoffs :=
  mem_payoffs_iff.mpr ⟨player, i, j, rfl⟩

theorem payoff_map (f : ℚ → ℚ) (g : Game ℚ n m) (player : Player) (i : Fin n) (j : Fin m) :
    (g.map f).payoff player i j = f (g.payoff player i j) := by
  cases player with
  | row => exact Table.entry_mapEntries f g.row i j
  | column => exact Table.entry_mapEntries f g.column i j

def normalized (g : Game ℚ n m) : Game ℚ n m := g.map g.range.normalize

theorem payoff_normalized (g : Game ℚ n m) (player : Player) (i : Fin n) (j : Fin m) :
    g.normalized.payoff player i j = g.range.normalize (g.payoff player i j) :=
  payoff_map _ g player i j

/-- The normalized payoffs make a game.  They lie between 1 and 2 in the order of the payoffs that
they come from; the least is 1 and, unless all are equal, the greatest is 2; and the same profiles
pass the exact test for an equilibrium, whether or not they are distributions. -/
theorem isEquilibrium_normalized (g : Game ℚ n m) :
    ofPayoffs? g.normalizedRow.entry g.normalizedColumn.entry = .ok g.normalized ∧
      (∀ player i j, g.normalized.payoff player i j ∈ Set.Icc 1 2) ∧
      (∀ player i j player' i' j', g.payoff player i j < g.payoff player' i' j' ↔
        g.normalized.payoff player i j < g.normalized.payoff player' i' j') ∧
      (∀ player i j, (∀ u ∈ g.payoffs, g.payoff player i j ≤ u) →
        g.normalized.payoff player i j = 1) ∧
      ((∃ u ∈ g.payoffs, ∃ v ∈ g.payoffs, u ≠ v) →
        ∀ player i j, (∀ u ∈ g.payoffs, u ≤ g.payoff player i j) →
          g.normalized.payoff player i j = 2) ∧
      ∀ s : Profile ℚ n m, g.normalized.isEquilibrium s 0 = g.isEquilibrium s 0 := by
  obtain ⟨low, high, hlow, hhigh⟩ := g.exists_extremes
  obtain ⟨c, hc, hsub⟩ := PayoffRange.exists_normalize_sub_eq hlow hhigh
  have hleast := List.min?_eq_some_iff.mp hlow
  have hgreatest := List.max?_eq_some_iff.mp hhigh
  refine ⟨ofPayoffs?_entry g.normalized, ?_, ?_, ?_, ?_, ?_⟩
  · intro player i j
    rw [payoff_normalized]
    exact PayoffRange.normalize_mem_Icc (g.payoff_mem_payoffs player i j)
  · intro player i j player' i' j'
    rw [payoff_normalized, payoff_normalized]
    exact PayoffRange.lt_iff_of_sub_eq hc
      (hsub _ (g.payoff_mem_payoffs player i j) _ (g.payoff_mem_payoffs player' i' j'))
  · intro player i j h
    have hmem := g.payoff_mem_payoffs player i j
    rw [payoff_normalized, (h low hleast.1).antisymm (hleast.2 _ hmem)]
    exact PayoffRange.normalize_low hlow hhigh
  · rintro ⟨u, hu, v, hv, huv⟩ player i j h
    have hmem := g.payoff_mem_payoffs player i j
    have hne : low ≠ high := by
      rintro rfl
      exact huv (((hgreatest.2 u hu).antisymm (hleast.2 u hu)).trans
        ((hgreatest.2 v hv).antisymm (hleast.2 v hv)).symm)
    rw [payoff_normalized, (hgreatest.2 _ hmem).antisymm (h high hgreatest.1)]
    exact PayoffRange.normalize_high hlow hhigh hne
  · intro s
    apply isEquilibrium_map hc hsub
    rw [zero_mul, zero_mul, mul_zero]

theorem isEquilibrium_normalized_twoBestResponses :
    (∀ u ∈ twoBestResponses.payoffs, twoBestResponses.payoff .column 1 0 ≤ u) ∧
      twoBestResponses.normalized.payoff .column 1 0 = 1 ∧
      (∀ u ∈ twoBestResponses.payoffs, u ≤ twoBestResponses.payoff .row 0 0) ∧
      twoBestResponses.normalized.payoff .row 0 0 = 2 ∧
      twoBestResponses.normalized.isEquilibrium ⟨#v[0, 1], #v[1 / 3, 2 / 3]⟩ 0 = true := by
  obtain ⟨-, -, -, hleast, hgreatest, hverdict⟩ := twoBestResponses.isEquilibrium_normalized
  have hlow : ∀ u ∈ twoBestResponses.payoffs, twoBestResponses.payoff .column 1 0 ≤ u := by
    decide +kernel
  have hhigh : ∀ u ∈ twoBestResponses.payoffs, u ≤ twoBestResponses.payoff .row 0 0 := by
    decide +kernel
  have hdiffer : ∃ u ∈ twoBestResponses.payoffs, ∃ v ∈ twoBestResponses.payoffs, u ≠ v := by
    decide +kernel
  refine ⟨hlow, hleast _ _ _ hlow, hhigh, hgreatest hdiffer _ _ _ hhigh, ?_⟩
  rw [hverdict]
  decide +kernel

/-- The game with every payoff `u` of both players replaced by `a * u + b`. -/
def rescale (g : Game ℚ n m) (a b : ℚ) : Game ℚ n m := g.map fun u => a * u + b

end Game

theorem PayoffRange.min?_rescale {us : List ℚ} {a b low : ℚ} (ha : 0 < a)
    (h : us.min? = some low) : (us.map fun u => a * u + b).min? = some (a * low + b) := by
  obtain ⟨hmem, hle⟩ := List.min?_eq_some_iff.mp h
  refine List.min?_eq_some_iff.mpr ⟨List.mem_map_of_mem hmem, fun v hv => ?_⟩
  obtain ⟨u, hu, rfl⟩ := List.mem_map.mp hv
  exact add_le_add_left (mul_le_mul_of_nonneg_left (hle u hu) ha.le) b

theorem PayoffRange.max?_rescale {us : List ℚ} {a b high : ℚ} (ha : 0 < a)
    (h : us.max? = some high) : (us.map fun u => a * u + b).max? = some (a * high + b) := by
  obtain ⟨hmem, hge⟩ := List.max?_eq_some_iff.mp h
  refine List.max?_eq_some_iff.mpr ⟨List.mem_map_of_mem hmem, fun v hv => ?_⟩
  obtain ⟨u, hu, rfl⟩ := List.mem_map.mp hv
  exact add_le_add_left (mul_le_mul_of_nonneg_left (hge u hu) ha.le) b

/-- Normalization undoes scale and offset. -/
theorem PayoffRange.normalize_rescale {us : List ℚ} {a b low high : ℚ} (ha : 0 < a)
    (hlow : us.min? = some low) (hhigh : us.max? = some high) (u : ℚ) :
    (ofPayoffs (us.map fun u => a * u + b)).normalize (a * u + b) =
      (ofPayoffs us).normalize u := by
  have hspan : (a * high + b) / 2 - (a * low + b) / 2 = a * (high / 2 - low / 2) := by ring
  have hdistance : (a * u + b) / 2 - (a * low + b) / 2 = a * (u / 2 - low / 2) := by ring
  rw [normalize_eq, normalize_eq, ofPayoffs_eq (min?_rescale ha hlow) (max?_rescale ha hhigh),
    ofPayoffs_eq hlow hhigh]
  dsimp only
  rw [hspan, hdistance, mul_div_mul_left _ _ ha.ne']
  exact if_congr (mul_eq_zero_iff_left ha.ne') rfl rfl

namespace Scalar

theorem abs_eq (x : ℚ) : abs x = |x| := by
  unfold abs
  split_ifs with h
  · exact (abs_of_neg h).symm
  · exact (abs_of_nonneg (not_lt.mp h)).symm

end Scalar

namespace Game

theorem normalize_rescale (g : Game ℚ n m) {a : ℚ} (ha : 0 < a) (b : ℚ) :
    ((g.rescale a b).range.normalize ∘ fun u => a * u + b) = g.range.normalize := by
  obtain ⟨low, high, hlow, hhigh⟩ := g.exists_extremes
  funext u
  rw [range, rescale, payoffs_map]
  exact PayoffRange.normalize_rescale ha hlow hhigh u

/-- Both games have the same first tableaus. -/
theorem tableaus_rescale (g : Game ℚ n m) {a : ℚ} (ha : 0 < a) (b : ℚ) :
    (g.rescale a b).tableaus = g.tableaus := by
  have hrow : (g.rescale a b).normalizedRow = g.normalizedRow := by
    rw [normalizedRow, normalizedRow, ← g.normalize_rescale ha b, ← Table.mapEntries_mapEntries]
    rfl
  have hcolumn : (g.rescale a b).normalizedColumn = g.normalizedColumn := by
    rw [normalizedColumn, normalizedColumn, ← g.normalize_rescale ha b,
      ← Table.mapEntries_mapEntries]
    rfl
  rw [tableaus, tableaus, rowTableau, rowTableau, columnTableau, columnTableau, hrow, hcolumn]

/-- The largest magnitude grows by the scale. -/
theorem scale_rescale (g : Game ℚ n m) {a : ℚ} (ha : 0 < a) :
    (g.rescale a 0).scale = a * g.scale := by
  have hstep (x u : ℚ) : Scalar.larger (a * x) (Scalar.abs (a * u + 0)) =
      a * Scalar.larger x (Scalar.abs u) := by
    rw [Scalar.larger_eq_max, Scalar.larger_eq_max, Scalar.abs_eq, Scalar.abs_eq, add_zero,
      abs_mul, abs_of_pos ha, mul_max_of_nonneg _ _ ha.le]
  rw [scale, scale, rescale, payoffs_map, List.map_map, List.foldl_map, List.foldl_map]
  calc g.payoffs.foldl (fun x u => Scalar.larger x (Scalar.abs (a * u + 0))) 0
      = g.payoffs.foldl (fun x u => Scalar.larger x (Scalar.abs (a * u + 0))) (a * 0) := by
        rw [mul_zero]
    _ = a * g.payoffs.foldl (fun x u => Scalar.larger x (Scalar.abs u)) 0 :=
        List.foldl_hom (a * ·) hstep

/-- Scale and offset of the payoffs make no difference to any run of a solver, and scale none to the
test for an equilibrium. -/
theorem solve_rescale (g : Game ℚ n m) {a : ℚ} (ha : 0 < a) (b : ℚ) :
    ofPayoffs? (fun i j => a * g.row.entry i j + b) (fun i j => a * g.column.entry i j + b) =
        .ok (g.rescale a b) ∧
      (∀ s : Solver, s.solve (g.rescale a b) = s.solve g) ∧
      ∀ (s : Profile ℚ n m) (ε : ℚ),
        (g.rescale a 0).isEquilibrium s ε = g.isEquilibrium s ε := by
  refine ⟨ofPayoffs?_map (fun u => a * u + b) g, ?_, ?_⟩
  · intro s
    unfold Solver.solve Solver.run Solver.runFrom
    rw [g.tableaus_rescale ha b]
  · intro s ε
    apply isEquilibrium_map ha
    · intro u _ v _
      ring
    · have hscale := g.scale_rescale ha
      rw [rescale] at hscale
      rw [hscale]
      ring

theorem solve_rescale_twoBestResponses :
    (0 : ℚ) < 3 ∧
      Solver.solve {} (twoBestResponses.rescale 3 (-5)) =
        .ok ⟨⟨#v[0, 1], #v[1 / 3, 2 / 3]⟩, 0, 3⟩ ∧
      (twoBestResponses.rescale 3 0).isEquilibrium ⟨#v[0, 1], #v[1 / 3, 2 / 3]⟩ (1 / 1000) =
        true := by
  have hsolve : Solver.solve {} twoBestResponses = .ok ⟨⟨#v[0, 1], #v[1 / 3, 2 / 3]⟩, 0, 3⟩ := by
    cbv
  have hthree : (0 : ℚ) < 3 := by norm_num
  obtain ⟨-, hsame, hverdict⟩ := solve_rescale twoBestResponses hthree (-5)
  refine ⟨hthree, (hsame {}).trans hsolve, ?_⟩
  rw [hverdict]
  decide +kernel

end Game

end Bimatrix
