import Mathlib
import InteriorPoint.Proofs.Curvature
import InteriorPoint.Proofs.Newton

/-!
# Proofs/Newton/Solvability — when the Newton system has one solution

At a point with positive slacks and multipliers and a positive definite model of curvature, a vector
on which all four left-hand sides vanish has `dx = 0`: the curvature along it is the inner product
of `ds` and `dz`, which is not positive as the two have opposite signs.  Then `ds` and `dz` vanish
as well, and `dy` is a linear dependency of the rows of the equality Jacobian
(`Vanishes.eq_zero`, `vanishes_dependency`).

* `direction_iff` — a direction is found exactly if these rows are independent; if not, the system
  is found singular.
-/

namespace InteriorPoint.NewtonSystem

variable {K : Type} [ExactScalar K] {n p k : ℕ} {it : Iterate K} {e : Evaluation K}
  {dx : Fin n → K} {ds : Fin k → K} {dy : Fin p → K} {dz : Fin k → K}

/-- A product with a transpose is the product the other way round. -/
theorem dot_transpose_mulVec (m : Matrix K) {rows cols : ℕ} (u : Fin cols → K) (v : Fin rows → K) :
    u ⬝ᵥ (m.entries rows cols).transpose.mulVec v = (m.entries rows cols).mulVec u ⬝ᵥ v := by
  rw [Matrix.dotProduct_mulVec, Matrix.vecMul_transpose]

/-- **The curvature along a vanishing direction** is what slacks and multipliers contribute. -/
theorem Vanishes.curvature_eq (h : Vanishes it e dx ds dy dz) :
    dx ⬝ᵥ (it.curvature.entries n n).mulVec dx = ds ⬝ᵥ dz := by
  have hstationarity := congrArg (dx ⬝ᵥ ·) h.stationarity
  simp only [dotProduct_sub, dotProduct_zero, dot_transpose_mulVec, h.equality, h.inequality,
    zero_dotProduct, sub_zero] at hstationarity
  exact sub_eq_zero.mp hstationarity

/-- Where slacks and multipliers are positive, their changes along a vanishing direction have
opposite signs. -/
theorem Vanishes.dot_nonpos (h : Vanishes it e dx ds dy dz) (hs : ∀ i, 0 < it.s.vec k i)
    (hz : ∀ i, 0 < it.z.vec k i) : ds ⬝ᵥ dz ≤ 0 := by
  refine Finset.sum_nonpos fun i _ => ?_
  have hchange : ds i * dz i = -(it.z.vec k i * ds i ^ 2 / it.s.vec k i) := by
    have hne := (hs i).ne'
    have hi := h.complementarity i
    field_simp
    linear_combination ds i * hi
  have hzi := hz i
  have hsi := hs i
  rw [hchange, neg_nonpos]
  positivity

/-- **Only the multipliers of the equalities can be left** of a vanishing direction. -/
theorem Vanishes.eq_zero (h : Vanishes it e dx ds dy dz) (hB : Curvature.IsPosDef it.curvature n)
    (hs : ∀ i, 0 < it.s.vec k i) (hz : ∀ i, 0 < it.z.vec k i) :
    dx = 0 ∧ ds = 0 ∧ dz = 0 ∧ (e.equalityJacobian.entries p n).transpose.mulVec dy = 0 := by
  have hdx : dx = 0 := by
    by_contra hne
    have hpos := hB.pos dx hne
    rw [h.curvature_eq] at hpos
    exact (h.dot_nonpos hs hz).not_gt hpos
  have hds : ds = 0 := by rw [← h.inequality, hdx, Matrix.mulVec_zero]
  have hdz : dz = 0 := by
    ext i
    have hi := h.complementarity i
    rw [hds, Pi.zero_apply, mul_zero, zero_add] at hi
    exact (mul_eq_zero.mp hi).resolve_left (hs i).ne'
  refine ⟨hdx, hds, hdz, ?_⟩
  simpa [hdx, hdz] using h.stationarity

/-- A linear dependency of the rows of the equality Jacobian is a vanishing direction. -/
theorem vanishes_dependency (hdy : (e.equalityJacobian.entries p n).transpose.mulVec dy = 0) :
    Vanishes it e (0 : Fin n → K) (0 : Fin k → K) dy 0 := by
  refine ⟨?_, fun i => ?_, Matrix.mulVec_zero _, Matrix.mulVec_zero _⟩
  · rw [hdy, Matrix.mulVec_zero, Matrix.mulVec_zero, sub_zero, sub_zero]
  · rw [Pi.zero_apply, mul_zero, mul_zero, add_zero]

theorem linearIndependent_row_iff (m : Matrix K) {rows cols : ℕ} :
    LinearIndependent K (m.entries rows cols).row ↔
      ∀ v, (m.entries rows cols).transpose.mulVec v = 0 → v = 0 := by
  rw [← Matrix.vecMul_injective_iff]
  simp only [Matrix.mulVec_transpose]
  exact injective_iff_map_eq_zero (Matrix.vecMulLinear (m.entries rows cols))

/-- **A direction is found exactly if the rows of the equality Jacobian are independent.** -/
theorem direction_iff {r : Residual K} (hit : it.Fits n p k) (he : e.Fits n p k)
    (hr : Residual.compute e it.s it.y it.z = .ok r) (mu : K)
    (hB : Curvature.IsPosDef it.curvature n) (hs : ∀ i, 0 < it.s.vec k i)
    (hz : ∀ i, 0 < it.z.vec k i) :
    LinearIndependent K (e.equalityJacobian.entries p n).row ∧
      (∃ d, (⟨n, p, k⟩ : NewtonSystem).direction it e r mu = .ok d ∧ d.Fits n p k) ∨
    ¬LinearIndependent K (e.equalityJacobian.entries p n).row ∧
      ∃ c, (⟨n, p, k⟩ : NewtonSystem).direction it e r mu = .error (.singular c) := by
  rw [linearIndependent_row_iff]
  obtain ⟨d, hd, hfits, _, hzero⟩ | ⟨hc, _, ⟨dx, ds, dy, dz⟩, hne, hq⟩ :=
    direction_cases hit he hr mu
  · refine .inl ⟨fun dy hdy => ?_, d, hd, hfits⟩
    have hq := hzero (0, 0, dy, 0) (vanishes_dependency hdy)
    exact congrArg (·.2.2.1) hq
  · refine .inr ⟨fun hindependent => hne ?_, hc⟩
    obtain ⟨rfl, rfl, rfl, hdy⟩ := hq.eq_zero hB hs hz
    obtain rfl := hindependent dy hdy
    rfl

end InteriorPoint.NewtonSystem
