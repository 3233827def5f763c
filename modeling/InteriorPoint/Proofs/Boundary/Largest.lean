import Mathlib
import InteriorPoint.Proofs.Boundary

/-!
# Proofs/Boundary/Largest — the step to the boundary is the largest admissible one

A running minimum is at least a bound exactly if everything it runs over is (`le_foldl_limitStep`).
For the rule of the boundary that settles both of its ends: the minimum is negative exactly if an
entry below zero is falling, and from a positive vector the steps up to it are those at which every
entry keeps the part `1 - tau` of itself.

* `toBoundary_largest` — when the rule refuses a vector, and that it finds the largest step.
-/

namespace InteriorPoint

namespace Matrix

variable {α : Type} {a b : Matrix α} {i j : ℕ}

/-- Two matrices of one shape end in the same places. -/
theorem lt_iff_of_shape (hshape : a.shape = b.shape) :
    i < a.rows ∧ j < a.cols ↔ i < b.rows ∧ j < b.cols := by
  obtain ⟨hrows, hcols⟩ := shape_eq_iff.mp hshape
  rw [hrows, hcols]

variable [Scalar α]

theorem coeff_of_not_lt_of_shape (hshape : a.shape = b.shape)
    (h : ¬(i < a.rows ∧ j < a.cols)) : b.coeff i j = 0 :=
  coeff_of_not_lt fun h' => h ((lt_iff_of_shape hshape).mpr h')

/-- What stands beside each other in two arrays stands in one place of the matrices. -/
theorem exists_coeff_of_mem_zip (hshape : a.shape = b.shape) {w : α × α}
    (hw : w ∈ a.data.zip b.data) : ∃ i j, w = (a.coeff i j, b.coeff i j) := by
  obtain ⟨k, hk, rfl⟩ := Array.getElem_of_mem hw
  have hlt : k < a.rows * a.cols := by
    rw [Array.size_zip, a.size_eq] at hk
    omega
  have hplace : k / a.cols < a.rows ∧ k % a.cols < a.cols := ⟨div_lt_rows hlt, mod_lt_cols hlt⟩
  obtain ⟨hi, hj⟩ := (lt_iff_of_shape hshape).mp hplace
  have hcols : b.cols = a.cols := (shape_eq_iff.mp hshape.symm).2
  refine ⟨k / a.cols, k % a.cols, ?_⟩
  rw [Array.getElem_zip, coeff_of_lt hplace.1 hplace.2, coeff_of_lt hi hj]
  simp only [get, hcols, Nat.div_add_mod']

/-- …and the other way round. -/
theorem coeff_mem_zip (hshape : a.shape = b.shape) (h : i < a.rows ∧ j < a.cols) :
    (a.coeff i j, b.coeff i j) ∈ a.data.zip b.data := by
  obtain ⟨hi, hj⟩ := (lt_iff_of_shape hshape).mp h
  obtain ⟨hrows, hcols⟩ := shape_eq_iff.mp hshape
  rw [coeff_of_lt h.1 h.2, coeff_of_lt hi hj]
  exact get_mem_zip hrows hcols ⟨i, h.1⟩ ⟨j, h.2⟩

end Matrix

variable {K : Type} [ExactScalar K] {tau alpha beta : K} {v dv : Matrix K}

/-! ## The running minimum -/

theorem le_limitStep {w dw : K} :
    beta ≤ limitStep tau alpha w dw ↔ beta ≤ alpha ∧ (dw < 0 → beta ≤ -tau * w / dw) := by
  rw [limitStep, scalarMin_eq]
  split_ifs with hdw
  · rw [le_min_iff, imp_iff_right hdw]
  · exact ⟨fun h => ⟨h, fun h' => absurd h' hdw⟩, And.left⟩

/-- **A bound from below on the running minimum** is one on everything that it runs over. -/
theorem le_foldl_limitStep (xs : List (K × K)) :
    beta ≤ xs.foldl (fun alpha (vi, dvi) => limitStep tau alpha vi dvi) alpha ↔
      beta ≤ alpha ∧ ∀ w ∈ xs, w.2 < 0 → beta ≤ -tau * w.1 / w.2 := by
  induction xs generalizing alpha with
  | nil => simp
  | cons w xs ih => rw [List.foldl_cons, ih, le_limitStep, and_assoc, List.forall_mem_cons]

/-- The minimum that the rule of the boundary takes. -/
def boundaryMin (v dv : Matrix K) (tau : K) : K :=
  (v.data.zip dv.data).foldl (fun alpha (vi, dvi) => limitStep tau alpha vi dvi) 1

theorem toBoundary_eq (hshape : v.shape = dv.shape) : toBoundary v dv tau =
    if boundaryMin v dv tau < 0 then .error (.infeasibleStep (boundaryMin v dv tau))
    else .ok (boundaryMin v dv tau) := if_pos hshape

/-- **The steps up to the minimum**, place by place. -/
theorem le_boundaryMin (hshape : v.shape = dv.shape) : beta ≤ boundaryMin v dv tau ↔
    beta ≤ 1 ∧ ∀ i j, dv.coeff i j < 0 → beta ≤ -tau * v.coeff i j / dv.coeff i j := by
  rw [boundaryMin, ← Array.foldl_toList, le_foldl_limitStep]
  simp only [Array.mem_toList_iff]
  refine and_congr_right fun _ => ⟨fun h i j hneg => ?_, fun h w hw => ?_⟩
  · by_cases hij : i < v.rows ∧ j < v.cols
    · exact h _ (Matrix.coeff_mem_zip hshape hij) hneg
    · -- outside of the matrix nothing falls
      exact absurd hneg (Matrix.coeff_of_not_lt_of_shape hshape hij).not_lt
  · obtain ⟨i, j, rfl⟩ := Matrix.exists_coeff_of_mem_zip hshape hw
    exact h i j

/-! ## What it says of an entry -/

/-- The quotient of a falling entry has the sign of the entry. -/
theorem quotient_nonneg_iff (htau : 0 < tau) {w dw : K} (hdw : dw < 0) :
    0 ≤ -tau * w / dw ↔ 0 ≤ w := by
  rw [le_div_iff_of_neg hdw, zero_mul, neg_mul, neg_nonpos]
  exact mul_nonneg_iff_of_pos_left htau

/-- **A positive entry keeps its part** up to the quotient, if it falls, and always if it does not.
-/
theorem part_le_iff (htau : 0 < tau) {w dw : K} (hw : 0 < w) (hbeta : 0 ≤ beta) :
    (1 - tau) * w ≤ w + beta * dw ↔ (dw < 0 → beta ≤ -tau * w / dw) := by
  constructor
  · intro h hdw
    rw [le_div_iff_of_neg hdw]
    linarith
  · intro h
    rw [mul_comm beta]
    exact part_le_add_mul htau hw hbeta h

/-- **Up to a step every entry keeps its part**: from a positive vector, exactly up to the minimum.
-/
theorem keeps_iff_le_boundaryMin (htau : 0 < tau) (hshape : v.shape = dv.shape)
    (hv : ∀ w ∈ v.data, 0 < w) (hbeta : 0 ≤ beta) (hone : beta ≤ 1) :
    (∀ i j, (1 - tau) * v.coeff i j ≤ v.coeff i j + beta * dv.coeff i j) ↔
      beta ≤ boundaryMin v dv tau := by
  rw [le_boundaryMin hshape, and_iff_right hone]
  refine forall₂_congr fun i j => ?_
  by_cases hij : i < v.rows ∧ j < v.cols
  · refine part_le_iff htau ?_ hbeta
    rw [Matrix.coeff_of_lt hij.1 hij.2]
    exact hv _ (Matrix.get_mem_data ..)
  · simp [Matrix.coeff_of_not_lt hij, Matrix.coeff_of_not_lt_of_shape hshape hij]

theorem boundaryMin_pos (htau : 0 < tau) (hshape : v.shape = dv.shape)
    (hv : ∀ w ∈ v.data, 0 < w) : 0 < boundaryMin v dv tau := by
  obtain ⟨alpha, halpha, hpos, _⟩ := toBoundary_limits htau hshape hv
  rw [toBoundary_eq hshape] at halpha
  split_ifs at halpha
  exact (Except.ok.inj halpha).symm ▸ hpos

/-! ## The largest step -/

/-- **The step to the boundary is the largest admissible one.**  There is none exactly if an entry
below zero is falling.  From a positive vector it is positive and at most one; every step up to it
keeps the part `1 - tau` of every entry, and every longer one up to one takes some entry below. -/
theorem toBoundary_largest (htau : 0 < tau) (hshape : v.shape = dv.shape) :
    ((∃ alpha, toBoundary v dv tau = .error (.infeasibleStep alpha)) ↔
      ∃ i j, dv.coeff i j < 0 ∧ v.coeff i j < 0) ∧
    ((∀ w ∈ v.data, 0 < w) → ∃ alpha, toBoundary v dv tau = .ok alpha ∧ 0 < alpha ∧ alpha ≤ 1 ∧
      (∀ beta, 0 ≤ beta → beta ≤ alpha →
        ∀ i j, (1 - tau) * v.coeff i j ≤ v.coeff i j + beta * dv.coeff i j) ∧
      ∀ beta, alpha < beta → beta ≤ 1 →
        ∃ i j, v.coeff i j + beta * dv.coeff i j < (1 - tau) * v.coeff i j) := by
  constructor
  · have hrefused : (∃ alpha, toBoundary v dv tau = .error (.infeasibleStep alpha)) ↔
        boundaryMin v dv tau < 0 := by
      rw [toBoundary_eq hshape]
      split_ifs with hneg
      · exact iff_of_true ⟨_, rfl⟩ hneg
      · exact iff_of_false nofun hneg
    rw [hrefused, ← not_le, le_boundaryMin hshape, and_iff_right zero_le_one]
    push Not
    refine exists₂_congr fun i j => and_congr_right fun hneg => ?_
    rw [← not_le, quotient_nonneg_iff htau hneg, not_le]
  · intro hv
    have hpos := boundaryMin_pos htau hshape hv
    have hone : boundaryMin v dv tau ≤ 1 := ((le_boundaryMin hshape).mp le_rfl).1
    refine ⟨_, (toBoundary_eq hshape).trans (if_neg hpos.not_gt), hpos, hone, ?_, ?_⟩
    · intro beta hbeta hle
      exact (keeps_iff_le_boundaryMin htau hshape hv hbeta (hle.trans hone)).mpr hle
    · intro beta hlt hle
      have hbroken := mt (keeps_iff_le_boundaryMin htau hshape hv (hpos.trans hlt).le hle).mp
        hlt.not_ge
      push Not at hbroken
      exact hbroken

/-- Two falling entries, of which the second one sets the limit: at the step `199 / 800` it has
kept half a percent of itself, and at a quarter nothing. -/
theorem toBoundary_largest_second : (0 : ℚ) < 199 / 200 ∧
    (Matrix.column #[1, 2] : Matrix ℚ).shape = (Matrix.column #[-2, -8] : Matrix ℚ).shape ∧
    (∀ w ∈ (Matrix.column #[1, 2] : Matrix ℚ).data, 0 < w) ∧
    toBoundary (Matrix.column #[1, 2]) (Matrix.column #[-2, -8]) (199 / 200 : ℚ) =
      .ok (199 / 800) ∧
    ∃ i j, (Matrix.column #[1, 2] : Matrix ℚ).coeff i j +
      1 / 4 * (Matrix.column #[-2, -8] : Matrix ℚ).coeff i j <
        (1 - 199 / 200) * (Matrix.column #[1, 2] : Matrix ℚ).coeff i j := by
  have htau : (0 : ℚ) < 199 / 200 := by norm_num
  have hv : ∀ w ∈ (Matrix.column #[1, 2] : Matrix ℚ).data, 0 < w := by decide +kernel
  have hstep : toBoundary (Matrix.column #[1, 2]) (Matrix.column #[-2, -8]) (199 / 200 : ℚ) =
      .ok (199 / 800) := by decide +kernel
  have hshape : (Matrix.column #[1, 2] : Matrix ℚ).shape =
      (Matrix.column #[-2, -8] : Matrix ℚ).shape := rfl
  obtain ⟨alpha, halpha, _, _, _, hlonger⟩ := (toBoundary_largest htau hshape).2 hv
  obtain rfl := Except.ok.inj (halpha.symm.trans hstep)
  exact ⟨htau, hshape, hv, hstep, hlonger (1 / 4) (by norm_num) (by norm_num)⟩

end InteriorPoint
