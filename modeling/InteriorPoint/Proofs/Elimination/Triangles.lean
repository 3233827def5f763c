import Mathlib
import InteriorPoint.Factorization
import InteriorPoint.Proofs.Exact

/-!
# Proofs/Elimination/Triangles — what elimination keeps

After elimination in the columns before `c`, the rows pack two triangles: multipliers below the
diagonal in these columns (`lower`), and what is left of the matrix everywhere else (`upper`).
Their product is the matrix in its new row order, and stays so: an exchange of rows permutes both
triangles alike, and clearing a column moves a product of a column and a row from one to the
other.

* `Factors.step` — one column.
* `factors_run` — a whole run: either all columns are cleared, or elimination stopped at a column
  that is zero from the diagonal down.
-/

namespace InteriorPoint.Elimination

variable {K : Type} [ExactScalar K] {n : ℕ} {e : Elimination K n} {k : Fin n}

/-! ## The row with the largest entry -/

/-- Looking for a largest value, a later one is taken only if it is larger. -/
theorem le_foldl_argmax (f : Fin n → K) (is : List (Fin n)) (start : Fin n) :
    let best := is.foldl (fun best i => if f best < f i then i else best) start
    (best = start ∨ best ∈ is) ∧ f start ≤ f best ∧ ∀ i ∈ is, f i ≤ f best := by
  induction is generalizing start with
  | nil => simp
  | cons i is ih =>
    rw [List.foldl_cons]
    split
    · rename_i hlt
      obtain ⟨hmem, hstart, hrest⟩ := ih i
      refine ⟨.inr (List.mem_cons.mpr hmem), hlt.le.trans hstart, ?_⟩
      exact List.forall_mem_cons.mpr ⟨hstart, hrest⟩
    · rename_i hle
      obtain ⟨hmem, hstart, hrest⟩ := ih start
      refine ⟨hmem.imp_right (List.mem_cons_of_mem i), hstart, ?_⟩
      exact List.forall_mem_cons.mpr ⟨(not_lt.mp hle).trans hstart, hrest⟩

theorem mem_below {i : Fin n} : i ∈ below k ↔ k < i := by
  simp [below]

/-- **The pivot row** is on or below the diagonal, and no entry there is larger than its. -/
theorem pivotRow_spec (e : Elimination K n) (k : Fin n) :
    k ≤ e.pivotRow k ∧ ∀ i, k ≤ i → |e.entry i k| ≤ |e.entry (e.pivotRow k) k| := by
  obtain ⟨hmem, hstart, hrest⟩ :=
    le_foldl_argmax (fun i => Scalar.abs (e.entry i k)) (below k) k
  simp only [← ExactScalar.scalarAbs_eq]
  refine ⟨?_, ?_⟩
  · exact hmem.elim (fun h => h.ge) fun h => (mem_below.mp h).le
  · intro i hi
    rcases hi.eq_or_lt with rfl | hlt
    · exact hstart
    · exact hrest i (mem_below.mpr hlt)

/-! ## The two triangles -/

/-- **The unit lower triangle** of the multipliers in the columns before `c`. -/
def lower (e : Elimination K n) (c : ℕ) :=
  Matrix.of fun i l : Fin n =>
    if l = i then 1 else if l < i ∧ l.val < c then e.entry i l else 0

/-- **What is left of the matrix** after the columns before `c` were cleared below the diagonal. -/
def upper (e : Elimination K n) (c : ℕ) :=
  Matrix.of fun i j : Fin n => if j < i ∧ j.val < c then 0 else e.entry i j

/-- **The triangles pack the matrix `A`**, with the columns before `c` cleared: their product is `A`
in the present row order, and the pivots of these columns are not zero. -/
structure Factors (A : Fin n → Fin n → K) (e : Elimination K n) (c : ℕ) : Prop where
  product : e.lower c * e.upper c = (Matrix.of A).submatrix (fun i => e.order.get i) id
  order : Function.Injective fun i : Fin n => e.order.get i
  pivots : ∀ j : Fin n, j.val < c → e.entry j j ≠ 0

/-- At the start nothing is cleared. -/
theorem factors_start (rows : Vector (Vector K n) n) :
    Factors (fun i j => (rows.get i).get j) (start rows) 0 := by
  have hlower : (start rows).lower 0 = 1 := by
    ext i l
    simp [lower, Matrix.one_apply, eq_comm]
  have hupper : (start rows).upper 0 = Matrix.of fun i j => (rows.get i).get j := by
    ext i j
    simp [upper, entry, start]
  have horder : (fun i : Fin n => (start rows).order.get i) = id := by
    ext i
    simp [start]
  refine ⟨?_, ?_, nofun⟩
  · rw [hlower, hupper, horder, one_mul, Matrix.submatrix_id_id]
  · rw [horder]
    exact Function.injective_id

/-! ## Exchanging rows -/

section Swap

variable {p : Fin n}

theorem get_swap {β : Type} (v : Vector β n) (k p i : Fin n) :
    (v.swap k p k.isLt p.isLt).get i = v.get (Equiv.swap k p i) := by
  simp only [Vector.get_eq_getElem, Vector.getElem_swap, Equiv.swap_apply_def, Fin.ext_iff]
  split_ifs <;> rfl

omit [ExactScalar K] in
theorem entry_swap (e : Elimination K n) (k p i j : Fin n) :
    (e.swap k p).entry i j = e.entry (Equiv.swap k p i) j :=
  congrArg (Vector.get · j) (get_swap e.rows k p i)

omit [ExactScalar K] in
theorem order_swap (e : Elimination K n) (k p i : Fin n) :
    (e.swap k p).order.get i = e.order.get (Equiv.swap k p i) := get_swap e.order k p i

/-- An exchange of rows from `k` on leaves the rows before `k` alone. -/
theorem swap_eq_of_lt (hp : k ≤ p) {i : Fin n} (hi : i < k) : Equiv.swap k p i = i :=
  Equiv.swap_apply_of_ne_of_ne hi.ne (hi.trans_le hp).ne

/-- …and keeps the others behind them. -/
theorem le_swap_of_le (hp : k ≤ p) {i : Fin n} (hi : k ≤ i) : k ≤ Equiv.swap k p i := by
  rw [Equiv.swap_apply_def]
  split_ifs
  · exact hp
  · exact le_rfl
  · exact hi

theorem lower_swap (hp : k ≤ p) :
    (e.swap k p).lower k = (e.lower k).submatrix (Equiv.swap k p) (Equiv.swap k p) := by
  ext i l
  simp only [lower, Matrix.of_apply, Matrix.submatrix_apply, EmbeddingLike.apply_eq_iff_eq,
    entry_swap]
  refine if_congr Iff.rfl rfl ?_
  rcases lt_or_ge l k with hl | hl
  · rw [swap_eq_of_lt hp hl]
    refine if_congr (and_congr_left fun _ => ?_) rfl rfl
    rcases lt_or_ge i k with hi | hi
    · rw [swap_eq_of_lt hp hi]
    · exact iff_of_true (hl.trans_le hi) (hl.trans_le (le_swap_of_le hp hi))
  · rw [if_neg fun h => hl.not_gt h.2, if_neg fun h => (le_swap_of_le hp hl).not_gt h.2]

theorem upper_swap (hp : k ≤ p) :
    (e.swap k p).upper k = (e.upper k).submatrix (Equiv.swap k p) id := by
  ext i j
  simp only [upper, Matrix.of_apply, Matrix.submatrix_apply, id, entry_swap]
  refine if_congr (and_congr_left fun hj => ?_) rfl rfl
  rcases lt_or_ge i k with hi | hi
  · rw [swap_eq_of_lt hp hi]
  · have hj : j < k := hj
    exact iff_of_true (hj.trans_le hi) (hj.trans_le (le_swap_of_le hp hi))

/-- **An exchange of rows from the present column on** keeps the product of the triangles. -/
theorem Factors.swap {A : Fin n → Fin n → K} (h : Factors A e k) (hp : k ≤ p) :
    Factors A (e.swap k p) k := by
  refine ⟨?_, ?_, ?_⟩
  · rw [lower_swap hp, upper_swap hp,
      ← Matrix.submatrix_mul _ _ _ _ _ (Equiv.swap k p).bijective, h.product,
      Matrix.submatrix_submatrix]
    simp only [order_swap]
    rfl
  · simp only [order_swap]
    exact h.order.comp (Equiv.swap k p).injective
  · intro j hj
    simp only [entry_swap, swap_eq_of_lt hp hj]
    exact h.pivots j hj

end Swap

/-! ## Clearing a column -/

section Clear

/-- The multipliers of column `k`. -/
def multipliers (e : Elimination K n) (k : Fin n) (i : Fin n) : K :=
  if k < i then e.entry i k / e.entry k k else 0

theorem entry_clear (e : Elimination K n) (k i j : Fin n) :
    (e.clear k).entry i j =
      if k < i ∧ j = k then e.multipliers k i
      else if k < j then e.entry i j - e.multipliers k i * e.entry k j else e.entry i j := by
  by_cases hi : k < i
  · rcases lt_trichotomy j k with hj | rfl | hj
    · simp [entry, clear, reduce, hi, hj, hj.ne, hj.not_gt]
    · simp [entry, clear, reduce, multipliers, hi]
    · simp [entry, clear, reduce, multipliers, hi, hj, hj.ne', hj.not_gt]
  · simp [entry, clear, multipliers, hi]

theorem multipliers_of_le {i : Fin n} (hi : i ≤ k) : e.multipliers k i = 0 := if_neg hi.not_gt

/-- Clearing a column adds its multipliers to the lower triangle… -/
theorem lower_clear (e : Elimination K n) (k : Fin n) : (e.clear k).lower (k + 1) =
    e.lower k + Matrix.vecMulVec (e.multipliers k) (Pi.single k 1) := by
  ext i l
  simp only [lower, Matrix.of_apply, Matrix.add_apply, Matrix.vecMulVec_apply, entry_clear,
    Pi.single_apply, Nat.lt_add_one_iff, Fin.val_fin_lt, Fin.val_fin_le]
  rcases lt_trichotomy l k with hl | rfl | hl
  · simp [hl, hl.le, hl.ne, hl.not_gt]
  · rcases lt_trichotomy l i with hi | rfl | hi
    · simp [hi, hi.ne]
    · simp [multipliers_of_le]
    · simp [hi.ne', hi.not_gt, multipliers_of_le hi.le]
  · simp [hl.ne', hl.not_ge, hl.not_gt]

/-- …and takes the multiples of the pivot row from the upper one. -/
theorem upper_clear (hpivot : e.entry k k ≠ 0) : (e.clear k).upper (k + 1) =
    e.upper k - Matrix.vecMulVec (e.multipliers k) (e.upper k k) := by
  ext i j
  simp only [upper, Matrix.of_apply, Matrix.sub_apply, Matrix.vecMulVec_apply, entry_clear,
    Nat.lt_add_one_iff, Fin.val_fin_lt, Fin.val_fin_le]
  rcases lt_trichotomy j k with hj | rfl | hj
  · simp [hj, hj.le, hj.ne, hj.not_gt]
  · rcases lt_or_ge j i with hi | hi
    · have hcancel : e.entry i j - e.multipliers j i * e.entry j j = 0 := by
        rw [multipliers, if_pos hi, div_mul_cancel₀ _ hpivot, sub_self]
      simpa [hi] using hcancel.symm
    · simp [hi.not_gt, multipliers_of_le hi]
  · simp [hj, hj.ne', hj.not_ge, hj.not_gt]

/-- The lower triangle leaves a column alone that is zero down to row `k`. -/
theorem lower_mulVec_multipliers (e : Elimination K n) (k : Fin n) :
    (e.lower k).mulVec (e.multipliers k) = e.multipliers k := by
  ext i
  rw [Matrix.mulVec, dotProduct, Finset.sum_eq_single i]
  · simp [lower]
  · intro l _ hl
    rcases le_or_gt l k with hlk | hlk
    · rw [multipliers_of_le hlk, mul_zero]
    · have hzero : e.lower k i l = 0 := by
        simp [lower, hl, hlk.not_gt]
      rw [hzero, zero_mul]
  · exact fun hi => absurd (Finset.mem_univ i) hi

/-- **Clearing a column with a pivot** keeps the product of the triangles. -/
theorem Factors.clear {A : Fin n → Fin n → K} (h : Factors A e k) (hpivot : e.entry k k ≠ 0) :
    Factors A (e.clear k) (k + 1) := by
  refine ⟨?_, h.order, ?_⟩
  · -- with the multipliers `m`: (L + m ⊗ eₖ)(U - m ⊗ uₖ) = L U, as L m = m and eₖ · m = 0
    have hself : Matrix.vecMulVec (e.multipliers k) (Pi.single k 1) *
        Matrix.vecMulVec (e.multipliers k) (e.upper k k) = 0 := by
      rw [Matrix.vecMulVec_mul_vecMulVec, single_one_dotProduct, multipliers_of_le le_rfl]
      simp
    rw [lower_clear, upper_clear hpivot, add_mul, mul_sub, mul_sub, hself,
      Matrix.mul_vecMulVec, lower_mulVec_multipliers, Matrix.vecMulVec_mul,
      Matrix.single_one_vecMul, sub_zero]
    exact (sub_add_cancel _ _).trans h.product
  · intro j hj
    have hjk : j ≤ k := Nat.lt_add_one_iff.mp hj
    rw [entry_clear, if_neg fun h => hjk.not_gt h.1, if_neg hjk.not_gt]
    rcases hjk.eq_or_lt with rfl | hlt
    · exact hpivot
    · exact h.pivots j hlt

end Clear

/-! ## A run -/

/-- **One column**: the triangles go on, or the column is zero from the diagonal down. -/
theorem Factors.step {A : Fin n → Fin n → K} (h : Factors A e k) :
    (∃ e', e.step k = some e' ∧ Factors A e' (k + 1)) ∨
      e.step k = none ∧ ∀ i, k ≤ i → e.entry i k = 0 := by
  obtain ⟨hp, hmax⟩ := pivotRow_spec e k
  rw [Elimination.step]
  split
  · rename_i hzero
    rw [ExactScalar.beq_iff_eq, ExactScalar.scalarAbs_eq] at hzero
    refine .inr ⟨rfl, fun i hi => ?_⟩
    exact abs_eq_zero.mp (le_antisymm ((hmax i hi).trans hzero.le) (abs_nonneg _))
  · rename_i hzero
    rw [ExactScalar.beq_iff_eq, ExactScalar.scalarAbs_eq, abs_eq_zero] at hzero
    refine .inl ⟨_, rfl, (h.swap hp).clear ?_⟩
    simpa only [entry_swap, Equiv.swap_apply_left] using hzero

/-- **How far a run can come**: to the end with all columns cleared, or to the first column that is
zero from the diagonal down. -/
def Outcome.Explains (A : Fin n → Fin n → K) : Outcome K n → Prop
  | .packed e => Factors A e n
  | .singular k e => Factors A e k ∧ ∀ i, k ≤ i → e.entry i k = 0

theorem factors_run {A : Fin n → Fin n → K} {c : ℕ} (hc : c ≤ n) (h : Factors A e c) :
    (e.run ((List.finRange n).drop c)).Explains A := by
  -- by induction on the columns that are left
  induction hm : n - c generalizing e c with
  | zero =>
    obtain rfl : c = n := by omega
    rw [List.drop_eq_nil_of_le (List.length_finRange).le]
    exact h
  | succ m ih =>
    have hlt : c < n := by omega
    rw [List.drop_eq_getElem_cons (by rwa [List.length_finRange]), List.getElem_finRange, run]
    obtain ⟨e', hstep, h'⟩ | ⟨hstep, hzero⟩ := Factors.step (k := ⟨c, hlt⟩) h
    · rw [Fin.cast_mk, hstep]
      exact ih hlt h' (by omega)
    · rw [Fin.cast_mk, hstep]
      exact ⟨h, hzero⟩

end InteriorPoint.Elimination
