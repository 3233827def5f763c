import Mathlib
import InteriorPoint.Proofs.Elimination.Substitution
import InteriorPoint.Proofs.Matrix.Entries

/-!
# Proofs/LinearSystem — when a linear system is solved, and what is reported otherwise

Over exact scalars a system is solved exactly if its matrix is invertible.  A run of elimination
that stops at column `k` shows both halves of its report: the pivots before `k` make the columns
before it independent (`Factors.eq_zero_of_mulVec`), and column `k`, having nothing left from the
diagonal down, depends on them (`Factors.exists_mulVec_eq_zero`).

* `solveLinearSystem_spec` — soundness, completeness, and the column that is reported.
-/

namespace InteriorPoint

namespace Elimination

variable {K : Type} [ExactScalar K] {n : ℕ} {e : Elimination K n} {A : Fin n → Fin n → K} {c : ℕ}

/-- The unit lower triangle is invertible. -/
theorem isUnit_lower (e : Elimination K n) (c : ℕ) : IsUnit (e.lower c) := by
  have htriangular : (e.lower c).IsLowerTriangular := by
    intro i l hl
    have hl : i < l := hl
    simp [lower, hl.ne', hl.not_gt]
  rw [Matrix.isUnit_iff_isUnit_det, Matrix.det_of_isLowerTriangular _ htriangular]
  simp [lower]

/-- **A matrix and what is left of it have the same kernel.** -/
theorem Factors.mulVec_eq_zero_iff (h : Factors A e c) (v : Fin n → K) :
    (Matrix.of A).mulVec v = 0 ↔ (e.upper c).mulVec v = 0 := by
  have hproduct : (e.lower c).mulVec ((e.upper c).mulVec v) =
      fun i : Fin n => (Matrix.of A).mulVec v (e.order.get i) := by
    rw [Matrix.mulVec_mulVec, h.product]
    rfl
  have hsurjective := Finite.injective_iff_surjective.mp h.order
  have hinjective := Matrix.mulVec_injective_iff_isUnit.mpr (e.isUnit_lower c)
  constructor
  · intro hv
    refine hinjective (hproduct.trans ?_)
    rw [hv, Matrix.mulVec_zero]
    rfl
  · intro hv
    rw [hv, Matrix.mulVec_zero] at hproduct
    ext i
    obtain ⟨i, rfl⟩ := hsurjective i
    exact (congrFun hproduct i).symm

/-- **The columns before `c` are independent**: a vector supported there that is sent to zero is
zero. -/
theorem Factors.eq_zero_of_mulVec (h : Factors A e c) {v : Fin n → K}
    (hsupport : ∀ j : Fin n, c ≤ j → v j = 0) (hv : (Matrix.of A).mulVec v = 0) : v = 0 := by
  rw [h.mulVec_eq_zero_iff] at hv
  ext j
  -- from the last place up: row `j` leaves only the product of its pivot and `v j`
  induction j using WellFoundedGT.induction with
  | ind j ih =>
    rcases le_or_gt c j with hj | hj
    · exact hsupport j hj
    · have hrow : ∑ l, e.upper c j l * v l = e.entry j j * v j := by
        rw [Fintype.sum_eq_single j]
        · simp [upper]
        · intro l hl
          rcases hl.lt_or_gt with hlt | hgt
          · have hlc : l.val < c := lt_trans hlt hj
            simp [upper, hlt, hlc]
          · rw [ih l hgt, Pi.zero_apply, mul_zero]
      have hzero : e.entry j j * v j = 0 := hrow.symm.trans (congrFun hv j)
      exact (mul_eq_zero.mp hzero).resolve_left (h.pivots j hj)

/-! A column without a pivot: with unit columns in the place of those after it, what is left of the
matrix is a triangle with a zero on its diagonal. -/

/-- What is left of the columns up to `k`, and unit columns after them. -/
def leading (e : Elimination K n) (k : Fin n) :=
  Matrix.of fun i j : Fin n => if j ≤ k then e.upper k i j else if j = i then 1 else 0

theorem leading_of_le {k i j : Fin n} (hj : j ≤ k) : e.leading k i j = e.upper k i j := if_pos hj

theorem leading_of_lt {k i j : Fin n} (hj : k < j) : e.leading k i j = if j = i then 1 else 0 :=
  if_neg hj.not_ge

theorem isUpperTriangular_leading {k : Fin n} (hcolumn : ∀ i, k ≤ i → e.entry i k = 0) :
    (e.leading k).IsUpperTriangular := by
  intro i j hji
  have hji : j < i := hji
  rcases lt_trichotomy j k with hj | rfl | hj
  · rw [leading_of_le hj.le]
    simp [upper, hji, hj]
  · rw [leading_of_le le_rfl]
    simpa [upper] using hcolumn i hji.le
  · rw [leading_of_lt hj, if_neg hji.ne]

theorem det_leading {k : Fin n} (hcolumn : ∀ i, k ≤ i → e.entry i k = 0) :
    (e.leading k).det = 0 := by
  rw [Matrix.det_of_isUpperTriangular (isUpperTriangular_leading hcolumn)]
  refine Finset.prod_eq_zero (Finset.mem_univ k) ?_
  rw [leading_of_le le_rfl]
  simpa [upper] using hcolumn k le_rfl

/-- **A column without a pivot depends on those before it**: some vector that is not zero, supported
up to that column, is sent to zero. -/
theorem Factors.exists_mulVec_eq_zero {k : Fin n} (h : Factors A e k)
    (hcolumn : ∀ i, k ≤ i → e.entry i k = 0) :
    ∃ v ≠ 0, (∀ j, k < j → v j = 0) ∧ (Matrix.of A).mulVec v = 0 := by
  obtain ⟨v, hne, hv⟩ := Matrix.exists_mulVec_eq_zero_iff.mpr (det_leading hcolumn)
  have hsupport : ∀ i, k < i → v i = 0 := by
    intro i hi
    have hrow : ∑ j, e.leading k i j * v j = v i := by
      rw [Fintype.sum_eq_single i]
      · rw [leading_of_lt hi, if_pos rfl, one_mul]
      · intro j hj
        rcases hj.lt_or_gt with hlt | hgt
        · rw [isUpperTriangular_leading hcolumn hlt, zero_mul]
        · rw [leading_of_lt (hi.trans hgt), if_neg hj, zero_mul]
    exact hrow.symm.trans (congrFun hv i)
  refine ⟨v, hne, hsupport, (h.mulVec_eq_zero_iff v).mpr ?_⟩
  rw [← hv]
  ext i
  change ∑ j, e.upper k i j * v j = ∑ j, e.leading k i j * v j
  refine Finset.sum_congr rfl fun j _ => ?_
  rcases le_or_gt j k with hj | hj
  · rw [leading_of_le hj]
  · rw [hsupport j hj, mul_zero, mul_zero]

end Elimination

/-! ## Solving -/

section Outcome

variable {α : Type} [Scalar α] {a b : Matrix α}

/-- A square system is solved by substitution, if elimination goes through. -/
theorem solveLinearSystem_eq (ha : a.cols = a.rows) (hb : b.cols = 1 ∧ b.rows = a.rows) :
    solveLinearSystem a b = match Factorization.eliminate a ha with
      | .packed e => .ok (Matrix.column
          (e.substitute (Vector.ofFn fun i => b.entry hb.1 (i.cast hb.2.symm))).toArray)
      | .singular k _ => .error (.singular k) := by
  rw [solveLinearSystem, Factorization.factorize, dif_pos ha]
  cases Factorization.eliminate a ha with
  | packed e => exact dif_pos hb
  | singular k e => rfl

/-- Whatever the arithmetic, a square system gives a column or is found singular. -/
theorem solveLinearSystem_outcome {n : ℕ} (ha : a.shape = (n, n)) (hb : b.shape = (n, 1)) :
    (∃ x, solveLinearSystem a b = .ok x ∧ x.shape = (n, 1)) ∨
      ∃ k, solveLinearSystem a b = .error (.singular k) := by
  obtain ⟨rfl, hac⟩ := Matrix.shape_eq_iff.mp ha
  obtain ⟨hbr, hbc⟩ := Matrix.shape_eq_iff.mp hb
  rw [solveLinearSystem_eq hac ⟨hbc, hbr⟩]
  cases Factorization.eliminate a hac with
  | packed e => exact .inl ⟨_, rfl, by simp⟩
  | singular k e => exact .inr ⟨k, rfl⟩

end Outcome

section Solve

variable {K : Type} [ExactScalar K] {n : ℕ}

/-- Columns are independent if no vector supported on them, but zero, is sent to zero. -/
theorem linearIndepOn_col_iff (A : Fin n → Fin n → K) (s : Finset (Fin n)) :
    LinearIndepOn K (Matrix.of A).col s ↔
      ∀ v : Fin n → K, (∀ j ∉ s, v j = 0) → (Matrix.of A).mulVec v = 0 → v = 0 := by
  have hsum : ∀ v : Fin n → K, (∀ j ∉ s, v j = 0) →
      ∑ j ∈ s, v j • (Matrix.of A).col j = (Matrix.of A).mulVec v := by
    intro v hv
    ext i
    rw [Finset.sum_subset (Finset.subset_univ s) fun j _ hj => by rw [hv j hj, zero_smul],
      Finset.sum_apply]
    exact Finset.sum_congr rfl fun j _ => mul_comm _ _
  rw [linearIndepOn_finset_iff]
  constructor
  · intro h v hv hzero
    ext j
    by_cases hj : j ∈ s
    · exact h v ((hsum v hv).trans hzero) j hj
    · exact hv j hj
  · intro h f hf j hj
    have hv : ∀ j ∉ s, (if j ∈ s then f j else 0) = 0 := fun j hj => if_neg hj
    have hzero := h (fun j => if j ∈ s then f j else 0) hv (by
      rw [← hsum _ hv, ← hf]
      exact Finset.sum_congr rfl fun j hj => by rw [if_pos hj])
    simpa [hj] using congrFun hzero j

/-- What elimination works on is the matrix. -/
theorem explains_eliminate {a : Matrix K} (h : a.cols = a.rows) :
    (Factorization.eliminate a h).Explains (fun i j : Fin a.rows => a.coeff i j) := by
  have hrows : (fun i j => ((Vector.ofFn fun i => Vector.ofFn fun j : Fin a.rows =>
      a.get i (j.cast h.symm)).get i).get j) = fun i j : Fin a.rows => a.coeff i j := by
    ext i j
    rw [Vector.get_ofFn, Vector.get_ofFn]
    exact (a.coeff_val i (j.cast h.symm)).symm
  rw [← hrows]
  exact Elimination.factors_run (Nat.zero_le _) (Elimination.factors_start _)

/-- **A system that is solved has an invertible matrix**, and the solution is its only one. -/
theorem solveLinearSystem_of_packed {a b : Matrix K} (ha : a.cols = a.rows)
    (hb : b.cols = 1 ∧ b.rows = a.rows) {e : Elimination K a.rows}
    (he : Factorization.eliminate a ha = .packed e) :
    IsUnit (a.entries a.rows a.rows) ∧ ∃ x, solveLinearSystem a b = .ok x ∧
      x.shape = (a.rows, 1) ∧
      ∀ v, (a.entries a.rows a.rows).mulVec v = b.vec a.rows ↔ v = x.vec a.rows := by
  have hfactors : Elimination.Factors (fun i j : Fin a.rows => a.coeff i j) e a.rows := by
    have hexplains := explains_eliminate ha
    rwa [he] at hexplains
  have hsolves : ∀ w : Vector K a.rows,
      (a.entries a.rows a.rows).mulVec (e.substitute w).get = w.get := hfactors.mulVec_substitute
  have hunit : IsUnit (a.entries a.rows a.rows) := by
    refine Matrix.mulVec_surjective_iff_isUnit.mp fun w => ⟨_, (hsolves (Vector.ofFn w)).trans ?_⟩
    ext i
    exact Vector.get_ofFn w i
  refine ⟨hunit, _, by rw [solveLinearSystem_eq ha hb, he], by simp, fun v => ?_⟩
  have hread : (Vector.ofFn fun i => b.entry hb.1 (i.cast hb.2.symm)).get = b.vec a.rows := by
    ext i
    rw [Vector.get_ofFn, Matrix.entry_eq_coeff]
    rfl
  rw [Matrix.vec_column, ← hread, ← hsolves]
  exact (Matrix.mulVec_injective_iff_isUnit.mpr hunit).eq_iff

/-- **A system that is refused has a singular matrix**, and the column that is reported is the first
one to depend on those before it. -/
theorem solveLinearSystem_of_singular {a b : Matrix K} (ha : a.cols = a.rows)
    (hb : b.cols = 1 ∧ b.rows = a.rows) {e : Elimination K a.rows} {k : Fin a.rows}
    (he : Factorization.eliminate a ha = .singular k e) :
    ¬IsUnit (a.entries a.rows a.rows) ∧ solveLinearSystem a b = .error (.singular k) ∧
      IsLeast {j | ¬LinearIndepOn K (a.entries a.rows a.rows).col (Set.Iic j)} k := by
  obtain ⟨hfactors, hcolumn⟩ : Elimination.Factors (fun i j : Fin a.rows => a.coeff i j) e k ∧
      ∀ i, k ≤ i → e.entry i k = 0 := by
    have hexplains := explains_eliminate ha
    rwa [he] at hexplains
  obtain ⟨v, hne, hsupport, hv⟩ := hfactors.exists_mulVec_eq_zero hcolumn
  refine ⟨fun hunit => ?_, by rw [solveLinearSystem_eq ha hb, he], ?_, fun j hj => ?_⟩
  · refine hne (Matrix.mulVec_injective_iff_isUnit.mpr hunit (hv.trans ?_))
    exact (Matrix.mulVec_zero _).symm
  · rw [Set.mem_ofPred_eq, ← Finset.coe_Iic]
    intro hindep
    refine hne ((linearIndepOn_col_iff _ _).mp hindep v (fun j hj => ?_) hv)
    exact hsupport j (not_le.mp fun h => hj (Finset.mem_Iic.mpr h))
  · -- a column before `k` would be independent of those before it
    by_contra hlt
    rw [Set.mem_ofPred_eq, ← Finset.coe_Iic] at hj
    refine hj ((linearIndepOn_col_iff _ _).mpr fun w hw hzero => ?_)
    refine hfactors.eq_zero_of_mulVec (fun i hi => hw i fun hij => ?_) hzero
    exact hlt (le_trans hi (Finset.mem_Iic.mp hij))

/-- **What solving a square system comes to**: the solution, or the column that depends on those
before it. -/
theorem solveLinearSystem_cases {a b : Matrix K} (ha : a.shape = (n, n)) (hb : b.shape = (n, 1)) :
    (IsUnit (a.entries n n) ∧ ∃ x, solveLinearSystem a b = .ok x ∧ x.shape = (n, 1) ∧
      ∀ v, (a.entries n n).mulVec v = b.vec n ↔ v = x.vec n) ∨
    (¬IsUnit (a.entries n n) ∧ ∃ k : Fin n, solveLinearSystem a b = .error (.singular k) ∧
      IsLeast {j | ¬LinearIndepOn K (a.entries n n).col (Set.Iic j)} k) := by
  obtain ⟨rfl, hac⟩ := Matrix.shape_eq_iff.mp ha
  obtain ⟨hbr, hbc⟩ := Matrix.shape_eq_iff.mp hb
  cases he : Factorization.eliminate a hac with
  | packed e => exact .inl (solveLinearSystem_of_packed hac ⟨hbc, hbr⟩ he)
  | singular k e =>
    obtain ⟨hunit, herror, hleast⟩ := solveLinearSystem_of_singular hac ⟨hbc, hbr⟩ he
    exact .inr ⟨hunit, k, herror, hleast⟩

/-- **Solving is sound and complete.**  A square system is solved if and only if its matrix is
invertible, and then the result is the only solution; otherwise the smallest `k` is reported such
that the columns up to `k` are dependent. -/
theorem solveLinearSystem_spec {a b : Matrix K} (ha : a.shape = (n, n)) (hb : b.shape = (n, 1)) :
    ((∃ x, solveLinearSystem a b = .ok x) ↔ IsUnit (a.entries n n)) ∧
    (∀ x, solveLinearSystem a b = .ok x → x.shape = (n, 1) ∧
      ∀ v, (a.entries n n).mulVec v = b.vec n ↔ v = x.vec n) ∧
    (¬IsUnit (a.entries n n) → ∃ k : Fin n, solveLinearSystem a b = .error (.singular k) ∧
      IsLeast {j | ¬LinearIndepOn K (a.entries n n).col (Set.Iic j)} k) := by
  obtain ⟨hunit, x, hx, hspec⟩ | ⟨hunit, k, hk, hleast⟩ := solveLinearSystem_cases ha hb
  · refine ⟨⟨fun _ => hunit, fun _ => ⟨x, hx⟩⟩, fun x' hx' => ?_, fun h => absurd hunit h⟩
    obtain rfl : x = x' := Except.ok.inj (hx.symm.trans hx')
    exact hspec
  · refine ⟨⟨?_, fun h => absurd h hunit⟩, ?_, fun _ => ⟨k, hk, hleast⟩⟩
    · rintro ⟨x, hx⟩
      cases hk.symm.trans hx
    · intro x hx
      cases hk.symm.trans hx

/-- A matrix whose last two columns agree. -/
def repeatedColumns : Matrix ℚ := ⟨3, 3, #[0, 2, 2, 1, 1, 1, 3, 5, 5], rfl⟩

/-- Its system is refused at the last column, and so the first two are independent. -/
theorem solveLinearSystem_spec_repeatedColumns :
    (repeatedColumns.shape = (3, 3) ∧ (Matrix.ones 3 : Matrix ℚ).shape = (3, 1)) ∧
      IsLeast {j : Fin 3 | ¬LinearIndepOn ℚ (repeatedColumns.entries 3 3).col (Set.Iic j)} 2 := by
  refine ⟨⟨rfl, rfl⟩, ?_⟩
  have hresult : (match solveLinearSystem repeatedColumns (Matrix.ones 3) with
      | .error (.singular k) => decide (k = 2)
      | _ => false) = true := by decide +kernel
  obtain ⟨hsolved, _, hrefused⟩ :=
    solveLinearSystem_spec (n := 3) (a := repeatedColumns) (b := Matrix.ones 3) rfl rfl
  have hunit : ¬IsUnit (repeatedColumns.entries 3 3) := by
    intro hunit
    obtain ⟨x, hx⟩ := hsolved.mpr hunit
    rw [hx] at hresult
    cases hresult
  obtain ⟨k, hk, hleast⟩ := hrefused hunit
  rw [hk] at hresult
  obtain rfl : k = 2 := Fin.ext (of_decide_eq_true hresult)
  exact hleast

end Solve

end InteriorPoint
