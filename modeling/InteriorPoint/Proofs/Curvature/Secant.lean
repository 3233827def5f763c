import Mathlib
import InteriorPoint.Proofs.Curvature

/-!
# Proofs/Curvature/Secant — what the updated model does along the step

The update takes off what the model did along the step and puts on what it is to do, so the new
model maps the step to `r` (`Parts.multiply_next`).  Damping decides what `r` is: the change of
gradient itself where that has at least a fifth of the curvature of the model, and otherwise the
mixture that has exactly a fifth (`damping_mem`, `Parts.sr_of_lt`).

* `update_secant` — a positive definite model has an update, and it is positive definite and maps
  the step to `r`.
-/

namespace InteriorPoint.Curvature

variable {K : Type} [ExactScalar K] {s y q : Matrix K} {n : ℕ}

/-- Damping mixes: at least something of the change of gradient is taken, and at most all of it. -/
theorem damping_mem {sqs : K} (hsqs : 0 < sqs) (sy : K) :
    0 < damping sqs sy ∧ damping sqs sy ≤ 1 := by
  rw [damping]
  split_ifs with h
  · exact ⟨zero_lt_one, le_rfl⟩
  · have h : sy < sqs / 5 := by
      norm_num at h
      linarith
    have hpos : 0 < sqs - sy := by linarith
    have hpart : (0 : K) < 0.8 * sqs := mul_pos (by norm_num) hsqs
    refine ⟨div_pos hpart hpos, (div_le_one hpos).mpr ?_⟩
    norm_num
    linarith

namespace Parts

variable (t : Parts s y q)

theorem shape_r (hy : y.shape = (n, 1)) : t.r.shape = (n, 1) :=
  (Matrix.shape_of_zipWith?_eq_ok t.r_eq).trans hy

/-- **The new model maps the step to `r`.** -/
theorem multiply_next (hs : s.shape = (n, 1)) (hy : y.shape = (n, 1)) (hq : q.shape = (n, n))
    (hsqs : t.sqs ≠ 0) (hsr : t.sr ≠ 0) : t.next.multiply s = .ok t.r := by
  obtain ⟨image, himage, hshape⟩ := Matrix.exists_multiply (t.shape_next hq) hs
  have hvec : image.vec n = (t.next.entries n n).mulVec (s.vec n) := by
    ext i
    rw [Matrix.vec_apply, Matrix.coeff_of_multiply_eq_ok (t.shape_next hq) himage]
    rfl
  have hqs : t.qs.vec n ⬝ᵥ s.vec n = t.sqs := by
    rw [dotProduct_comm, Matrix.eq_of_dot_eq_ok hs t.sqs_eq]
  have hr : t.r.vec n ⬝ᵥ s.vec n = t.sr := by
    rw [dotProduct_comm, Matrix.eq_of_dot_eq_ok hs t.sr_eq]
  -- what the old model did along the step is taken off in full
  have hnext : (t.next.entries n n).mulVec (s.vec n) = t.r.vec n := by
    rw [t.entries_next, Matrix.add_mulVec, Matrix.sub_mulVec, ← t.vec_qs hq]
    simp only [Matrix.smul_mulVec, Matrix.vecMulVec_mulVec, hqs, hr]
    ext i
    simp only [Pi.add_apply, Pi.sub_apply, Pi.smul_apply, smul_eq_mul, MulOpposite.smul_eq_mul_unop,
      MulOpposite.unop_op]
    field_simp
    ring
  rw [himage, Matrix.eq_of_vec hshape (t.shape_r hy) fun i => congrFun (hvec.trans hnext) i]

/-- **Without damping `r` is the change of gradient.** -/
theorem r_of_le (hy : y.shape = (n, 1)) (h : 0.2 * t.sqs ≤ t.sy) : t.r = y := by
  have htheta : damping t.sqs t.sy = 1 := if_pos h
  refine Matrix.eq_of_vec (t.shape_r hy) hy fun i => ?_
  rw [t.vec_r, htheta, one_smul, sub_self, zero_smul, add_zero]

end Parts

/-- **The damped update.**  Take exact scalars, a positive definite model `q`, a step `s` that goes
somewhere and any change of gradient `y`.  The update succeeds, is positive definite, and maps the
step to `r`, a mixture of `y` and `q s` whose curvature along the step is at least a fifth of that
of the model.  It is `y` itself if `y` has at least a fifth, and has exactly a fifth otherwise. -/
theorem update_secant (hq : IsPosDef q n) (hs : s.shape = (n, 1)) (hy : y.shape = (n, 1))
    (hne : s.vec n ≠ 0) :
    ∃ q' qs r sqs sy sr theta, update s y q = .ok q' ∧ IsPosDef q' n ∧
      q.multiply s = .ok qs ∧ s.dot qs = .ok sqs ∧ s.dot y = .ok sy ∧
      (y.scale theta).add (qs.scale (1 - theta)) = .ok r ∧ s.dot r = .ok sr ∧
      q'.multiply s = .ok r ∧ 0 < theta ∧ theta ≤ 1 ∧ 0.2 * sqs ≤ sr ∧
      (0.2 * sqs ≤ sy → theta = 1 ∧ r = y) ∧
      (sy < 0.2 * sqs → theta = 0.8 * sqs / (sqs - sy) ∧ sr = 0.2 * sqs) := by
  obtain ⟨t⟩ := nonempty_parts hs hy hq.shape
  have hsqs := t.sqs_pos hq hs hne
  have hsr := t.sr_pos hs hsqs
  obtain ⟨hpos, hle⟩ := damping_mem hsqs t.sy
  exact ⟨t.next, t.qs, t.r, t.sqs, t.sy, t.sr, damping t.sqs t.sy, t.update_eq_ok hs hy hsqs hsr,
    t.isPosDef_next hq hs hne hsr, t.qs_eq, t.sqs_eq, t.sy_eq, t.r_eq, t.sr_eq,
    t.multiply_next hs hy hq.shape hsqs.ne' hsr.ne', hpos, hle, t.fifth_le hs hsqs,
    fun h => ⟨if_pos h, t.r_of_le hy h⟩,
    fun h => ⟨if_neg h.not_ge, t.sr_of_lt hs hsqs h⟩⟩

/-- A model that mixes two variables. -/
def mixing : Matrix ℚ := ⟨2, 2, #[2, 1, 1, 2], rfl⟩

theorem isPosDef_mixing : IsPosDef mixing 2 := by
  have hentries : mixing.entries 2 2 = !![2, 1; 1, 2] := by decide +kernel
  refine ⟨rfl, ?_, fun v hv => ?_⟩
  · rw [hentries]
    decide +kernel
  · have hsome : v 0 ≠ 0 ∨ v 1 ≠ 0 := by
      by_contra h
      push Not at h
      exact hv (funext fun i => by fin_cases i <;> simp [h])
    have hform : v ⬝ᵥ (mixing.entries 2 2).mulVec v = v 0 ^ 2 + v 1 ^ 2 + (v 0 + v 1) ^ 2 := by
      rw [hentries]
      simp [dotProduct, Matrix.mulVec, Fin.sum_univ_two]
      ring
    rw [hform]
    rcases hsome with h | h
    · positivity
    · positivity

/-- Along the diagonal the change of gradient turns downwards: it is damped to a fifth of `6`. -/
theorem update_secant_downwards : ∃ q' r sr,
    update (.column #[1, 1]) (.column #[1, -3]) mixing = .ok q' ∧ IsPosDef q' 2 ∧
      q'.multiply (.column #[1, 1]) = .ok r ∧ Matrix.dot (.column #[1, 1]) r = .ok sr ∧
      sr = 6 / 5 := by
  obtain ⟨q', qs, r, sqs, sy, sr, theta, hq', hpos, hqs, hsqs, hsy, -, hsr, hsecant, -, -, -, -,
    hdamped⟩ := update_secant (s := .column #[1, 1]) (y := .column #[1, -3]) isPosDef_mixing rfl rfl
      (by decide +kernel)
  have hmodel : sqs = 6 := by
    rw [Matrix.eq_of_dot_eq_ok (n := 2) rfl hsqs, dotProduct, Fin.sum_univ_two]
    simp only [Matrix.vec_apply, Matrix.coeff_of_multiply_eq_ok isPosDef_mixing.shape hqs]
    decide +kernel
  have hmet : sy = -2 := by
    rw [Matrix.eq_of_dot_eq_ok (n := 2) rfl hsy]
    decide +kernel
  refine ⟨q', r, sr, hq', hpos, hsecant, hsr, ?_⟩
  rw [(hdamped (by rw [hmodel, hmet]; norm_num)).2, hmodel]
  norm_num

end InteriorPoint.Curvature
