import Mathlib.LinearAlgebra.Matrix.Nondegenerate
import Mathlib.LinearAlgebra.Matrix.NonsingularInverse
import Mathlib.Tactic
import Bimatrix.Proofs.Tableau.InverseForm

/-! # Vertices of a nondegenerate system

The tableaus of a system whose right-hand side is all ones and whose basic solutions are never
degenerate.  Pivots lead from vertex to vertex, the clamp is idle, and of the bases that arise from
one label too many by leaving out one label at most two belong to vertices.
-/
namespace Bimatrix

open Matrix

variable {size labels : ℕ}

/-- Every basic solution that is not negative is positive, and no coefficient of its tableau lies
above zero without being above the cutoff. -/
def NondegenerateSystem (A : Matrix (Fin size) (Fin labels) ℚ) : Prop :=
  ∀ b : Fin size → Fin labels, (A.submatrix id b).det ≠ 0 →
    (∀ i, 0 ≤ ((A.submatrix id b)⁻¹ *ᵥ 1) i) →
      (∀ i, 0 < ((A.submatrix id b)⁻¹ *ᵥ 1) i) ∧
        ∀ i j, ((A.submatrix id b)⁻¹ * A) i j ∉ Set.Ioc 0 Scalar.cutoff

theorem nondegenerateSystem_iff {A : Matrix (Fin size) (Fin labels) ℚ} :
    NondegenerateSystem A ↔ ∀ b : Fin size → Fin labels, (A.submatrix id b).det ≠ 0 →
      (∀ i, 0 ≤ (((A.submatrix id b).det⁻¹ • (A.submatrix id b).adjugate) *ᵥ 1) i) →
        (∀ i, 0 < (((A.submatrix id b).det⁻¹ • (A.submatrix id b).adjugate) *ᵥ 1) i) ∧
          ∀ i j, 0 < (((A.submatrix id b).det⁻¹ • (A.submatrix id b).adjugate) * A) i j →
            ¬(((A.submatrix id b).det⁻¹ • (A.submatrix id b).adjugate) * A) i j ≤
              Scalar.cutoff := by
  simp only [NondegenerateSystem, inv_def, Ring.inverse_eq_inv', Set.mem_Ioc, not_and]

/-- Determinants and adjugates can be computed. -/
instance (A : Matrix (Fin size) (Fin labels) ℚ) : Decidable (NondegenerateSystem A) :=
  decidable_of_iff' _ nondegenerateSystem_iff

namespace Tableau

/-- A tableau of the system with right-hand side all ones and no negative value. -/
structure Vertex (A : Matrix (Fin size) (Fin labels) ℚ) (t : Tableau ℚ size labels) : Prop
    extends InverseForm A t where
  rightSide_eq : t.rightSide A = 1
  level_nonneg : ∀ i, 0 ≤ t.level i

variable {A : Matrix (Fin size) (Fin labels) ℚ} {t u : Tableau ℚ size labels}

theorem InverseForm.entries_eq (h : InverseForm A t) : t.entries = (t.basisColumns A)⁻¹ * A := by
  have hunit : IsUnit (t.basisColumns A).det := h.det_pos.ne'.isUnit
  calc t.entries = (t.basisColumns A)⁻¹ * (t.basisColumns A * t.entries) :=
        (nonsing_inv_mul_cancel_left _ _ hunit).symm
    _ = (t.basisColumns A)⁻¹ * A := by rw [h.mul_entries]

theorem Vertex.level_eq (h : Vertex A t) : t.level = (t.basisColumns A)⁻¹ *ᵥ 1 := by
  have hunit : IsUnit (t.basisColumns A).det := h.det_pos.ne'.isUnit
  rw [← h.rightSide_eq, rightSide, mulVec_mulVec, nonsing_inv_mul _ hunit, one_mulVec]

theorem Vertex.level_pos (hA : NondegenerateSystem A) (h : Vertex A t) (i : Fin size) :
    0 < t.level i := by
  have hnonneg := h.level_nonneg
  rw [h.level_eq] at hnonneg ⊢
  exact (hA t.label h.det_pos.ne' hnonneg).1 i

theorem Vertex.cutoff_lt (hA : NondegenerateSystem A) (h : Vertex A t) {i : Fin size}
    {j : Fin labels} (hpos : 0 < t.entries i j) : Scalar.cutoff < t.entries i j := by
  have hnonneg := h.level_nonneg
  rw [h.level_eq] at hnonneg
  have hnot := (hA t.label h.det_pos.ne' hnonneg).2 i j
  by_contra hle
  apply hnot
  constructor
  · exact hpos.trans_eq (congrFun₂ h.entries_eq i j)
  · exact (congrFun₂ h.entries_eq i j).symm.trans_le (not_lt.mp hle)

/-- Where every positive entry of the column takes part in the ratio test, no value would fall
below zero. -/
theorem clampIdle_of_cutoff_lt {q : Fin labels}
    (h : ∀ i, 0 < t.entries i q → Scalar.cutoff < t.entries i q) : t.ClampIdle q := by
  intro r hr i
  unfold raise
  split_ifs with hi
  · rfl
  · rw [Row.clamp_eq, if_neg, sub_self]
    rintro ⟨hpos, hneg⟩
    exact absurd (mul_ratio_le_level hr (h i hpos)) (not_le.mpr (sub_neg.mp hneg))

theorem Vertex.pivot (hA : NondegenerateSystem A) (h : Vertex A t) {q : ℕ}
    {x : Exchange ℚ size labels} (hx : t.pivot q = .ok x) : Vertex A x.tableau where
  toInverseForm := h.toInverseForm.pivots (.step .refl hx)
  rightSide_eq := by
    obtain ⟨hq, -⟩ := pivot_eq_ok_iff.mp hx
    have hidle : t.ClampIdle ⟨q, hq⟩ := clampIdle_of_cutoff_lt fun i => h.cutoff_lt hA
    exact (h.rightSide_pivot (q := ⟨q, hq⟩) hx hidle).trans h.rightSide_eq
  level_nonneg := level_nonneg_of_pivots h.level_nonneg (.step .refl hx)

theorem Vertex.pivots (hA : NondegenerateSystem A) (h : Vertex A t) (hu : t.Pivots u) :
    Vertex A u := by
  induction hu with
  | refl => exact h
  | step _ hx ih => exact ih.pivot hA hx

end Tableau

/-- A set of independent columns with a positive solution for all ones. -/
structure PositiveBasis (A : Matrix (Fin size) (Fin labels) ℚ) (F : Finset (Fin labels)) :
    Prop where
  independent : ∀ z : Fin labels → ℚ, A *ᵥ z = 0 → (∀ l ∉ F, z l = 0) → z = 0
  solution : ∃ x : Fin labels → ℚ, A *ᵥ x = 1 ∧ (∀ l ∈ F, 0 < x l) ∧ ∀ l ∉ F, x l = 0

variable {A : Matrix (Fin size) (Fin labels) ℚ}

theorem Tableau.Vertex.positiveBasis (hA : NondegenerateSystem A)
    {t : Tableau ℚ size labels} (h : Vertex A t) : PositiveBasis A t.basisSet where
  independent z hz hsupport := by
    have hbasic : t.basisColumns A *ᵥ (z ∘ t.label) = 0 := by
      rw [basisColumns_mulVec h.label_injective A fun l hl => hsupport l (mem_basisSet.not.mpr hl),
        hz]
    have hzero := eq_zero_of_mulVec_eq_zero h.det_pos.ne' hbasic
    funext l
    by_cases hl : l ∈ t.basisSet
    · obtain ⟨i, rfl⟩ := mem_basisSet.mp hl
      exact congrFun hzero i
    · exact hsupport l hl
  solution := by
    refine ⟨t.value, ?_, ?_, ?_⟩
    · rw [mulVec_value h.label_injective, h.rightSide_eq]
    · intro l hl
      obtain ⟨i, rfl⟩ := mem_basisSet.mp hl
      rw [value_of_basic h.label_injective]
      exact h.level_pos hA i
    · intro l hl
      exact value_of_not_basic (mem_basisSet.not.mp hl)

/-- Three solutions that leave out one label each lie on a line, and the one between the two others
would be positive where it leaves out a label. -/
theorem PositiveBasis.erase_unique {K : Finset (Fin labels)} {a b c : Fin labels}
    (ha : PositiveBasis A (K.erase a)) (hb : PositiveBasis A (K.erase b))
    (hc : PositiveBasis A (K.erase c)) (haK : a ∈ K) (hbK : b ∈ K) (hcK : c ∈ K) (hab : a ≠ b)
    (hac : a ≠ c) : b = c := by
  by_contra hbc
  obtain ⟨x, hx, hxpos, hxzero⟩ := ha.solution
  obtain ⟨y, hy, hypos, hyzero⟩ := hb.solution
  obtain ⟨z, hz, hzpos, hzzero⟩ := hc.solution
  have hxa : x a = 0 := hxzero a (by simp)
  have hyb : y b = 0 := hyzero b (by simp)
  have hzc : z c = 0 := hzzero c (by simp)
  have hya : 0 < y a := hypos a (Finset.mem_erase.mpr ⟨hab, haK⟩)
  have hza : 0 < z a := hzpos a (Finset.mem_erase.mpr ⟨hac, haK⟩)
  have hxb : 0 < x b := hxpos b (Finset.mem_erase.mpr ⟨hab.symm, hbK⟩)
  have hxc : 0 < x c := hxpos c (Finset.mem_erase.mpr ⟨hac.symm, hcK⟩)
  have hzb : 0 < z b := hzpos b (Finset.mem_erase.mpr ⟨hbc, hbK⟩)
  have hyc : 0 < y c := hypos c (Finset.mem_erase.mpr ⟨Ne.symm hbc, hcK⟩)
  -- the combination of the two differences that vanishes at `a`
  have hline : z a • (x - y) - y a • (x - z) = 0 := by
    apply ha.independent
    · rw [mulVec_sub, mulVec_smul, mulVec_smul, mulVec_sub, mulVec_sub, hx, hy, hz, sub_self,
        smul_zero, smul_zero, sub_self]
    · intro l hl
      by_cases hla : l = a
      · subst hla
        simp only [Pi.sub_apply, Pi.smul_apply, smul_eq_mul, hxa]
        ring
      · have hlK : l ∉ K := fun hK => hl (Finset.mem_erase.mpr ⟨hla, hK⟩)
        have hnot (d : Fin labels) : l ∉ K.erase d := fun hd => hlK (Finset.mem_of_mem_erase hd)
        simp only [Pi.sub_apply, Pi.smul_apply, hxzero l (hnot a), hyzero l (hnot b),
          hzzero l (hnot c), sub_zero, smul_zero]
  have hatb := congrFun hline b
  have hatc := congrFun hline c
  simp only [Pi.sub_apply, Pi.smul_apply, smul_eq_mul, Pi.zero_apply, hyb, hzc] at hatb hatc
  have hlt : z a < y a := by
    by_contra hge
    nlinarith
  nlinarith

structure Enters (A : Matrix (Fin size) (Fin labels) ℚ) (entering leaving : Fin labels)
    (F G : Finset (Fin labels)) : Prop where
  source : PositiveBasis A F
  target : PositiveBasis A G
  entering_notMem : entering ∉ F
  leaving_mem : leaving ∈ F
  eq_erase : G = (insert entering F).erase leaving

namespace Enters

variable {q l k : Fin labels} {F G H : Finset (Fin labels)}

theorem entering_ne (h : Enters A q l F G) : q ≠ l :=
  fun heq => h.entering_notMem (heq ▸ h.leaving_mem)

theorem entering_mem (h : Enters A q l F G) : q ∈ G := by
  rw [h.eq_erase]
  exact Finset.mem_erase.mpr ⟨h.entering_ne, Finset.mem_insert_self q F⟩

theorem ne (h : Enters A q l F G) : F ≠ G :=
  fun heq => h.entering_notMem (heq ▸ h.entering_mem)

theorem symm (h : Enters A q l F G) : Enters A l q G F where
  source := h.target
  target := h.source
  entering_notMem := by
    rw [h.eq_erase]
    exact Finset.notMem_erase l _
  leaving_mem := h.entering_mem
  eq_erase := by
    have hl : l ∈ insert q F := Finset.mem_insert_of_mem h.leaving_mem
    rw [h.eq_erase, Finset.insert_erase hl, Finset.erase_insert h.entering_notMem]

/-- A label enters a positive basis in one way only. -/
theorem unique (hG : Enters A q l F G) (hH : Enters A q k F H) : G = H := by
  have hsource : PositiveBasis A ((insert q F).erase q) := by
    rw [Finset.erase_insert hG.entering_notMem]
    exact hG.source
  have hl : PositiveBasis A ((insert q F).erase l) := hG.eq_erase ▸ hG.target
  have hk : PositiveBasis A ((insert q F).erase k) := hH.eq_erase ▸ hH.target
  rw [hG.eq_erase, hH.eq_erase, hsource.erase_unique hl hk (Finset.mem_insert_self q F)
    (Finset.mem_insert_of_mem hG.leaving_mem) (Finset.mem_insert_of_mem hH.leaving_mem)
    hG.entering_ne hH.entering_ne]

end Enters

theorem Tableau.Vertex.enters (hA : NondegenerateSystem A) {t : Tableau ℚ size labels}
    (h : Vertex A t) {q : Fin labels} {x : Exchange ℚ size labels}
    (hx : t.pivot q.val = .ok x) :
    Enters A q x.leaving t.basisSet x.tableau.basisSet := by
  obtain ⟨-, hq, -, -⟩ := pivot_eq_ok_iff.mp hx
  refine ⟨h.positiveBasis hA, (h.pivot hA hx).positiveBasis hA, ?_, ?_,
    basisSet_pivot h.label_injective hx⟩
  · rw [mem_basisSet, ← isBasic_val_iff, hq]
    exact Bool.false_ne_true
  · rw [mem_basisSet, (pivot_label hx).1]
    exact Set.mem_range_self x.row

end Bimatrix
