import Mathlib
import InteriorPoint.Dual
import InteriorPoint.Proofs.LineSearch

/-!
# Proofs/Dual — dual numbers over the reals carry derivatives

Over the reals, with exponential, logarithm, square root and power for what they are, a family of
dual numbers *carries* a function at a point if in every direction its value is that of the function
and its tangent the derivative of the function along the direction.  Each operation on dual numbers
takes what carries its arguments to what carries its result: the arithmetic by the rules of
differentiation, everything else by the one chain rule (`Carries.chain`).
-/

namespace InteriorPoint

/-- **The real numbers.**  Nothing is unbounded in them. -/
noncomputable instance : ExactScalar ℝ where
  sqrt := Real.sqrt
  exp := Real.exp
  ln := Real.log
  pow a c := a ^ c
  infinity := 0
  descentBound := ExactScalar.descentRounds

namespace Dual

/-- Over exact scalars a zero tangent needs no rule of its own. -/
theorem chain_eq {K : Type} [ExactScalar K] (d : Dual K) (value derivative : K) :
    d.chain value derivative = ⟨value, d.eps * derivative⟩ := by
  rw [chain]
  split
  · rename_i h
    rw [ExactScalar.beq_iff_eq.mp h, zero_mul]
  · rfl

variable {n : ℕ} {v w : (Fin n → ℝ) → Dual ℝ} {F G : (Fin n → ℝ) → ℝ} {x : Fin n → ℝ}

/-- **Dual numbers that carry a function at a point**: its value, and its derivative along each
direction. -/
def Carries (v : (Fin n → ℝ) → Dual ℝ) (F : (Fin n → ℝ) → ℝ) (x : Fin n → ℝ) : Prop :=
  ∃ L : (Fin n → ℝ) →L[ℝ] ℝ, HasFDerivAt F L x ∧ ∀ d, v d = ⟨F x, L d⟩

theorem carries_constant (c : ℝ) : Carries (fun _ => ⟨c, 0⟩) (fun _ => c) x :=
  ⟨0, hasFDerivAt_const c x, fun _ => rfl⟩

theorem carries_coordinate (j : Fin n) : Carries (fun d => ⟨x j, d j⟩) (fun y => y j) x :=
  ⟨ContinuousLinearMap.proj j, hasFDerivAt_apply j x, fun _ => rfl⟩

/-! ## Arithmetic -/

theorem Carries.add (hv : Carries v F x) (hw : Carries w G x) :
    Carries (fun d => v d + w d) (fun y => F y + G y) x := by
  obtain ⟨L, hL, hv⟩ := hv
  obtain ⟨M, hM, hw⟩ := hw
  exact ⟨L + M, hL.add hM, fun d => congrArg₂ (· + ·) (hv d) (hw d)⟩

theorem Carries.sub (hv : Carries v F x) (hw : Carries w G x) :
    Carries (fun d => v d - w d) (fun y => F y - G y) x := by
  obtain ⟨L, hL, hv⟩ := hv
  obtain ⟨M, hM, hw⟩ := hw
  exact ⟨L - M, hL.sub hM, fun d => congrArg₂ (· - ·) (hv d) (hw d)⟩

theorem Carries.neg (hv : Carries v F x) : Carries (fun d => -v d) (fun y => -F y) x := by
  obtain ⟨L, hL, hv⟩ := hv
  exact ⟨-L, hL.neg, fun d => congrArg (- ·) (hv d)⟩

/-- **The product rule.** -/
theorem Carries.mul (hv : Carries v F x) (hw : Carries w G x) :
    Carries (fun d => v d * w d) (fun y => F y * G y) x := by
  obtain ⟨L, hL, hv⟩ := hv
  obtain ⟨M, hM, hw⟩ := hw
  refine ⟨F x • M + G x • L, hL.mul hM, fun d => ?_⟩
  have htangent : F x * M d + L d * G x = F x * M d + G x * L d := by rw [mul_comm (L d)]
  exact (congrArg₂ (· * ·) (hv d) (hw d)).trans (congrArg (Dual.mk _) htangent)

/-- **The quotient rule.** -/
theorem Carries.div (hv : Carries v F x) (hw : Carries w G x) (hG : G x ≠ 0) :
    Carries (fun d => v d / w d) (fun y => F y / G y) x := by
  obtain ⟨L, hL, hv⟩ := hv
  obtain ⟨M, hM, hw⟩ := hw
  refine ⟨F x • -(G x ^ 2)⁻¹ • M + (G x)⁻¹ • L, ?_, fun d => ?_⟩
  · simp only [div_eq_mul_inv]
    exact hL.mul ((hasDerivAt_inv hG).comp_hasFDerivAt x hM)
  · have hvalue : F x * (1 / G x) = F x / G x := mul_one_div _ _
    have htangent : (L d * G x - F x * M d) * (1 / G x) * (1 / G x) =
        F x * (-(G x ^ 2)⁻¹ * M d) + (G x)⁻¹ * L d := by
      field_simp
      ring
    exact (congrArg₂ (· / ·) (hv d) (hw d)).trans (congrArg₂ Dual.mk hvalue htangent)

/-! ## Functions of one number -/

/-- **The chain rule**, for a function `g` with the derivative `h` at the value. -/
theorem Carries.chain {g h : ℝ → ℝ} (hv : Carries v F x)
    (hg : HasDerivAt g (h (F x)) (F x)) :
    Carries (fun d => (v d).chain (g (v d).re) (h (v d).re)) (fun y => g (F y)) x := by
  obtain ⟨L, hL, hv⟩ := hv
  refine ⟨h (F x) • L, hg.comp_hasFDerivAt x hL, fun d => ?_⟩
  simp only [hv, chain_eq, smul_apply, smul_eq_mul, mul_comm (L d)]

theorem Carries.exp (hv : Carries v F x) :
    Carries (fun d => (v d).exp) (fun y => Real.exp (F y)) x :=
  hv.chain (Real.hasDerivAt_exp (F x))

theorem Carries.ln (hv : Carries v F x) (hF : 0 < F x) :
    Carries (fun d => (v d).ln) (fun y => Real.log (F y)) x := by
  refine hv.chain (h := fun t => 1 / t) ?_
  rw [one_div]
  exact Real.hasDerivAt_log hF.ne'

theorem Carries.sqrt (hv : Carries v F x) (hF : 0 < F x) :
    Carries (fun d => (v d).sqrt) (fun y => √(F y)) x := by
  refine hv.chain (h := fun t => 0.5 / √t) ((Real.hasDerivAt_sqrt hF.ne').congr_deriv ?_)
  have hhalf : (0.5 : ℝ) = 1 / 2 := by norm_num
  rw [hhalf, div_div]

/-- The derivative of a power is that of the usual rule, the power `0` included. -/
theorem Carries.pow (hv : Carries v F x) (hF : 0 < F x) (c : ℝ) :
    Carries (fun d => (v d).pow c) (fun y => F y ^ c) x := by
  refine hv.chain (h := fun t => if c == 0 then 0 else c * Scalar.pow t (c - 1))
    ((Real.hasDerivAt_rpow_const (.inl hF.ne')).congr_deriv ?_)
  split
  · rename_i hc
    rw [ExactScalar.beq_iff_eq.mp hc, zero_mul]
  · rfl

/-- **An integer power with an exponent that has one before it.** -/
theorem Carries.powInt {k : Int32} (hv : Carries v F x) (hk : k ≠ Int32.minValue)
    (hF : k < 0 → F x ≠ 0) :
    ∃ w, (∀ d, (v d).powInt k = .ok (w d)) ∧ Carries w (fun y => F y ^ k.toInt) x := by
  have hdomain : F x ≠ 0 ∨ 0 ≤ k.toInt := by
    rw [← not_lt, ← Int32.toInt_zero, ← Int32.lt_iff_toInt_lt]
    exact (em (k < 0)).imp hF id
  refine ⟨_, fun d => if_neg hk, ?_⟩
  simp only [powInt_eq_zpow]
  refine hv.chain (g := fun t => t ^ k.toInt)
    (h := fun t => if k = 0 then 0 else (k.toInt : ℝ) * t ^ (k.toInt - 1))
    ((hasDerivAt_zpow k.toInt (F x) hdomain).congr_deriv ?_)
  split
  · rename_i hzero
    rw [hzero, Int32.toInt_zero, Int.cast_zero, zero_mul]
  · rfl

end Dual

end InteriorPoint
