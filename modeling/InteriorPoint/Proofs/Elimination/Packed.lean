import Mathlib
import InteriorPoint.Proofs.LinearSystem

/-!
# Proofs/Elimination/Packed — the triangles that a factorization keeps

The packed rows hold a unit lower and an upper triangle.  Their product is the matrix in the row
order that is kept beside them, and no pivot is zero: that is what `Factors` says of a run that came
to its end.  The pivot of a column is its largest entry from the diagonal down, so no multiplier is
larger than one (`Tame`); an exchange of rows moves the multipliers that are there, and leaves them
as large as they are.

* `Factorization.factorize_triangles` — the two triangles, the row order, and their sizes.
-/

namespace InteriorPoint

namespace Elimination

/-! ## What every column keeps -/

section Run

variable {α : Type} [Scalar α] {n : ℕ}

/-- **What every column keeps, a run keeps** that comes to its end. -/
theorem run_keeps {I : Elimination α n → ℕ → Prop}
    (hstep : ∀ {e e' : Elimination α n} {k : Fin n}, I e k → e.step k = some e' → I e' (k + 1))
    {c : ℕ} (hc : c ≤ n) {e e' : Elimination α n} (h : I e c)
    (hrun : e.run ((List.finRange n).drop c) = .packed e') : I e' n := by
  -- by induction on the columns that are left
  induction hm : n - c generalizing e c with
  | zero =>
    obtain rfl : c = n := by omega
    rw [List.drop_eq_nil_of_le (List.length_finRange).le] at hrun
    cases hrun
    exact h
  | succ m ih =>
    have hlt : c < n := by omega
    rw [List.drop_eq_getElem_cons (by rwa [List.length_finRange]), List.getElem_finRange,
      Fin.cast_mk, run] at hrun
    cases hnext : e.step ⟨c, hlt⟩ with
    | none =>
      rw [hnext] at hrun
      cases hrun
    | some next =>
      rw [hnext] at hrun
      exact ih hlt (hstep (k := ⟨c, hlt⟩) h hnext) hrun (by omega)

end Run

/-! ## The size of the multipliers -/

variable {K : Type} [ExactScalar K] {n : ℕ} {e e' : Elimination K n} {k p : Fin n}

/-- **No multiplier of the columns before `c` is larger than one.** -/
def Tame (e : Elimination K n) (c : ℕ) : Prop :=
  ∀ i l : Fin n, l < i → l.val < c → |e.entry i l| ≤ 1

/-- An exchange of rows from the present column on moves multipliers within their columns. -/
theorem Tame.swap (h : e.Tame k) (hp : k ≤ p) : (e.swap k p).Tame k := by
  intro i l hli hlk
  rw [entry_swap]
  refine h _ l ?_ hlk
  rcases lt_or_ge i k with hi | hi
  · rwa [swap_eq_of_lt hp hi]
  · exact lt_of_lt_of_le hlk (le_swap_of_le hp hi)

/-- Multipliers against the largest entry are at most one. -/
theorem Tame.clear (h : e.Tame k) (hmax : ∀ i, k < i → |e.entry i k| ≤ |e.entry k k|) :
    (e.clear k).Tame (k + 1) := by
  intro i l hli hlk
  have hle : l ≤ k := Nat.lt_add_one_iff.mp hlk
  rw [entry_clear]
  rcases hle.eq_or_lt with rfl | hlt
  · rw [if_pos ⟨hli, rfl⟩, multipliers, if_pos hli, abs_div]
    exact div_le_one_of_le₀ (hmax i hli) (abs_nonneg _)
  · rw [if_neg fun hk => hlt.ne hk.2, if_neg hlt.not_gt]
    exact h i l hli hlt

/-- **One column**: the pivot is moved up, and the rows below are measured against it. -/
theorem Tame.step (h : e.Tame k) (hstep : e.step k = some e') : e'.Tame (k + 1) := by
  obtain ⟨hp, hmax⟩ := pivotRow_spec e k
  rw [Elimination.step] at hstep
  split at hstep
  · cases hstep
  · obtain rfl := Option.some.inj hstep
    refine (h.swap hp).clear fun i hi => ?_
    rw [entry_swap, entry_swap, Equiv.swap_apply_left]
    exact hmax _ (le_swap_of_le hp hi.le)

/-! ## Unpacking -/

/-- **The unit lower triangle** in packed rows. -/
def unitLower (e : Elimination K n) :=
  Matrix.of fun i j : Fin n => if j < i then e.entry i j else if j = i then 1 else 0

/-- **The upper triangle** in packed rows. -/
def upperPart (e : Elimination K n) :=
  Matrix.of fun i j : Fin n => if j < i then 0 else e.entry i j

theorem lower_eq_unitLower (e : Elimination K n) : e.lower n = e.unitLower := by
  ext i j
  rcases eq_or_ne j i with rfl | hne
  · simp [lower, unitLower]
  · simp [lower, unitLower, hne]

theorem upper_eq_upperPart (e : Elimination K n) : e.upper n = e.upperPart := by
  ext i j
  simp [upper, upperPart]

/-- No entry of the lower triangle is larger than one. -/
theorem Tame.abs_unitLower_le (h : e.Tame n) (i j : Fin n) : |e.unitLower i j| ≤ 1 := by
  rw [unitLower, Matrix.of_apply]
  split_ifs with hlt
  · exact h i j hlt j.isLt
  · exact abs_one.le
  · exact abs_zero.trans_le zero_le_one

/-- The row order of triangles that pack a matrix is a permutation. -/
noncomputable def Factors.perm {A : Fin n → Fin n → K} {c : ℕ} (h : Factors A e c) :
    Equiv.Perm (Fin n) :=
  Equiv.ofBijective _ (Finite.injective_iff_bijective.mp h.order)

end Elimination

/-! ## What a factorization keeps -/

namespace Factorization

open Elimination

variable {K : Type} [ExactScalar K] {a : Matrix K}

theorem tame_eliminate (h : a.cols = a.rows) {e : Elimination K a.rows}
    (he : eliminate a h = .packed e) : e.Tame a.rows := by
  rw [eliminate, ← List.drop_zero (l := List.finRange a.rows)] at he
  refine run_keeps (I := Tame) Tame.step (Nat.zero_le _) ?_ he
  exact fun _ _ _ hl => absurd hl (Nat.not_lt_zero _)

/-- A factorization succeeds on square matrices only, and keeps what elimination came to. -/
theorem exists_of_factorize {f : Factorization K} (h : (f.factorize a).2 = .ok ()) :
    ∃ (ha : a.cols = a.rows) (e : Elimination K a.rows),
      eliminate a ha = .packed e ∧ (f.factorize a).1 = ⟨a.rows, e.order, some e⟩ := by
  rw [factorize] at h ⊢
  split at h
  · rename_i ha
    rw [dif_pos ha]
    cases he : eliminate a ha with
    | packed e => exact ⟨ha, e, he, rfl⟩
    | singular k e =>
      rw [he] at h
      cases h
  · cases h

/-- **The packed triangles.**  A factorization that succeeds keeps a unit lower triangle `L` and an
upper triangle `U` whose product is the matrix with row `σ i` in the place of row `i`, where `σ` is
the permutation that it keeps.  No entry of `L` is larger than one, and no diagonal entry of `U` is
zero. -/
theorem factorize_triangles (f : Factorization K) (h : (f.factorize a).2 = .ok ()) :
    ∃ (e : Elimination K a.rows) (σ : Equiv.Perm (Fin a.rows)),
      a.cols = a.rows ∧ (f.factorize a).1 = ⟨a.rows, e.order, some e⟩ ∧
      (f.factorize a).1.permutation = List.ofFn (fun i => (σ i).val) ∧
      (a.entries a.rows a.rows).submatrix σ id = e.unitLower * e.upperPart ∧
      (∀ i j, |e.unitLower i j| ≤ 1) ∧ ∀ i, e.upperPart i i ≠ 0 := by
  obtain ⟨ha, e, he, hkept⟩ := exists_of_factorize h
  have hfactors : Factors (fun i j : Fin a.rows => a.coeff i j) e a.rows := by
    have hexplains := explains_eliminate ha
    rwa [he] at hexplains
  refine ⟨e, hfactors.perm, ha, hkept, ?_, ?_, (tame_eliminate ha he).abs_unitLower_le, ?_⟩
  · rw [hkept]
    refine List.ext_getElem (by simp [permutation]) fun i hi hi' => ?_
    simp [permutation, Factors.perm, Vector.get_eq_getElem]
  · rw [← lower_eq_unitLower, ← upper_eq_upperPart, hfactors.product]
    rfl
  · intro i
    simpa [upperPart] using hfactors.pivots i i.isLt

/-- A matrix whose first column has its largest entry in the middle and whose second column, with
that cleared, has it at the end: both exchanges are recorded. -/
def twiceExchanged : Matrix ℚ := ⟨3, 3, #[1, 2, 3, 4, 4, 4, 2, 6, 1], rfl⟩

/-- Its last row comes second, and the multipliers are `1 / 2`, `1 / 4` and `1 / 4`. -/
theorem factorize_triangles_twiceExchanged :
    (Factorization.empty.factorize twiceExchanged).2 = .ok () ∧
    (Factorization.empty.factorize twiceExchanged).1.permutation = [1, 2, 0] ∧
    ∃ e : Elimination ℚ 3, e.rows.toList.map Vector.toList =
        [[4, 4, 4], [1 / 2, 4, -1], [1 / 4, 1 / 4, 9 / 4]] ∧
      ∃ σ : Equiv.Perm (Fin 3), List.ofFn (fun i => (σ i).val) = [1, 2, 0] ∧
        (twiceExchanged.entries 3 3).submatrix σ id = e.unitLower * e.upperPart := by
  have hok : (Factorization.empty.factorize twiceExchanged).2 = .ok () := by decide +kernel
  have hperm : (Factorization.empty.factorize twiceExchanged).1.permutation = [1, 2, 0] := by
    decide +kernel
  have hrows : (Factorization.empty.factorize twiceExchanged).1.packed.map
      (fun e => e.rows.toList.map Vector.toList) =
        some [[4, 4, 4], [1 / 2, 4, -1], [1 / 4, 1 / 4, 9 / 4]] := by decide +kernel
  obtain ⟨e, σ, _, hkept, hσ, hproduct, _⟩ := factorize_triangles Factorization.empty hok
  rw [hkept] at hrows
  exact ⟨hok, hperm, e, Option.some.inj hrows, σ, hσ.symm.trans hperm, hproduct⟩

end Factorization

end InteriorPoint
