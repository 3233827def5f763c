import Mathlib
import InteriorPoint.Barrier
import InteriorPoint.Proofs.LineSearch
import InteriorPoint.Proofs.Matrix.Reorder
import InteriorPoint.Proofs.Newton
import InteriorPoint.Proofs.Stacking

/-!
# Proofs/Reorder — variables and constraints in another order

`σ` reorders the variables and `ρ` the constraints of each kind. Everything that a step is made of
follows: evaluations and residuals at corresponding points correspond, and what is read off a
residual as a whole is the same. The direction is the only part that is not computed entry by entry,
as elimination picks other pivots in another order; it corresponds because the Newton system has one
solution or none is found (`NewtonSystem.direction_reordered`).
-/

open Equiv (Perm)
open InteriorPoint.Matrix (Permuted)

namespace InteriorPoint

variable {K : Type} [ExactScalar K] {n : ℕ} {m : ConstraintKind → ℕ} {σ : Perm (Fin n)}
  {ρ : ∀ kind, Perm (Fin (m kind))} {p q : Program K} {size size' : Size}
  {x x' s s' y y' z z' : Matrix K}

/-! ## Programs -/

/-- A function that follows another one at points in another order: where both give a result, the
results are related. -/
def Follows (σ : Perm (Fin n)) (R : Matrix K → Matrix K → Prop) (f g : MatrixFunction K) : Prop :=
  ∀ x x' v v', Permuted σ x x' → f x = .ok v → g x' = .ok v' → R v v'

/-- **A program with the variables and constraints of another one in a different order.**  The
constraints of a kind are counted across all blocks. -/
structure Program.Reordered (σ : Perm (Fin n)) (ρ : ∀ kind, Perm (Fin (m kind)))
    (p q : Program K) : Prop where
  objective : Follows σ Eq p.objective q.objective
  gradient : Follows σ (Permuted σ) p.gradient q.gradient
  values : ∀ kind, Follows σ (Permuted (ρ kind)) (p.stackedValues kind) (q.stackedValues kind)
  jacobians : ∀ kind, Follows σ (Matrix.Reordered (ρ kind) σ) (p.stackedJacobians kind)
    (q.stackedJacobians kind)

/-! ## Evaluations and residuals -/

/-- **An evaluation in another order.** -/
structure Evaluation.Reordered (σ : Perm (Fin n)) (ρ : ∀ kind, Perm (Fin (m kind)))
    (e e' : Evaluation K) : Prop where
  gradient : Permuted σ e.gradient e'.gradient
  equality : Permuted (ρ .equality) e.equality e'.equality
  inequality : Permuted (ρ .inequality) e.inequality e'.inequality
  equalityJacobian : Matrix.Reordered (ρ .equality) σ e.equalityJacobian e'.equalityJacobian
  inequalityJacobian :
    Matrix.Reordered (ρ .inequality) σ e.inequalityJacobian e'.inequalityJacobian

/-- **A residual in another order.** -/
structure Residual.Reordered (σ : Perm (Fin n)) (ρ : ∀ kind, Perm (Fin (m kind)))
    (r r' : Residual K) : Prop where
  stationarity : Permuted σ r.stationarity r'.stationarity
  complementarity : Permuted (ρ .inequality) r.complementarity r'.complementarity
  equality : Permuted (ρ .equality) r.equality r'.equality
  inequality : Permuted (ρ .inequality) r.inequality r'.inequality

/-- **Programs in different order are evaluated alike.** -/
theorem Evaluation.reordered_of_compute {e e' : Evaluation K} (hpq : Program.Reordered σ ρ p q)
    (hp : p.TotalWith n size) (hq : q.TotalWith n size') (hx : Permuted σ x x')
    (he : Evaluation.compute p size x = .ok e) (he' : Evaluation.compute q size' x' = .ok e') :
    Evaluation.Reordered σ ρ e e' := by
  simp only [compute, hp.values_eq hx.left, hp.jacobians_eq hx.left, bind_eq_ok, pure_eq_ok] at he
  simp only [compute, hq.values_eq hx.right, hq.jacobians_eq hx.right, bind_eq_ok,
    pure_eq_ok] at he'
  obtain ⟨g, hg, c, hc, d, hd, jc, hjc, jd, hjd, _, _, rfl⟩ := he
  obtain ⟨g', hg', c', hc', d', hd', jc', hjc', jd', hjd', _, _, rfl⟩ := he'
  have hgradient : Permuted σ g g' := by
    simp only [objectiveGradient, bind_eq_ok] at hg hg'
    obtain ⟨v, hv, hg⟩ := hg
    obtain ⟨v', hv', hg'⟩ := hg'
    split at hg
    · split at hg'
      · rw [← pure_eq_ok.mp hg, ← pure_eq_ok.mp hg']
        exact hpq.gradient x x' v v' hx hv hv'
      · cases hg'
    · cases hg
  exact
    { gradient := hgradient
      equality := hpq.values _ x x' c c' hx hc hc'
      inequality := hpq.values _ x x' d d' hx hd hd'
      equalityJacobian := hpq.jacobians _ x x' jc jc' hx hjc hjc'
      inequalityJacobian := hpq.jacobians _ x x' jd jd' hx hjd hjd' }

namespace Evaluation.Reordered

variable {e e' : Evaluation K}

theorem symm (h : Evaluation.Reordered σ ρ e e') :
    Evaluation.Reordered σ.symm (fun kind => (ρ kind).symm) e' e where
  gradient := h.gradient.symm
  equality := h.equality.symm
  inequality := h.inequality.symm
  equalityJacobian := h.equalityJacobian.symm
  inequalityJacobian := h.inequalityJacobian.symm

theorem fits (h : Evaluation.Reordered σ ρ e e') : e.Fits n (m .equality) (m .inequality) :=
  ⟨h.gradient.left, h.equality.left, h.inequality.left, h.equalityJacobian.left,
    h.inequalityJacobian.left⟩

theorem lagrangianGradient (h : Evaluation.Reordered σ ρ e e')
    (hy : Permuted (ρ .equality) y y') (hz : Permuted (ρ .inequality) z z') {l l' : Matrix K}
    (hl : e.lagrangianGradient y z = .ok l) (hl' : e'.lagrangianGradient y' z' = .ok l') :
    Permuted σ l l' := by
  simp only [Evaluation.lagrangianGradient, bind_eq_ok] at hl hl'
  obtain ⟨gy, hgy, l₁, hl₁, hz₁, hhz, hl⟩ := hl
  obtain ⟨gy', hgy', l₁', hl₁', hz₁', hhz', hl'⟩ := hl'
  have hfirst := h.gradient.subtract (h.equalityJacobian.transpose.multiply hy hgy hgy') hl₁ hl₁'
  exact hfirst.subtract (h.inequalityJacobian.transpose.multiply hz hhz hhz') hl hl'

/-- **Residuals of corresponding points correspond.** -/
theorem residual (h : Evaluation.Reordered σ ρ e e') (hs : Permuted (ρ .inequality) s s')
    (hy : Permuted (ρ .equality) y y') (hz : Permuted (ρ .inequality) z z') {r r' : Residual K}
    (hr : Residual.compute e s y z = .ok r) (hr' : Residual.compute e' s' y' z' = .ok r') :
    Residual.Reordered σ ρ r r' := by
  simp only [Residual.compute, bind_eq_ok, pure_eq_ok] at hr hr'
  obtain ⟨l, hl, sz, hsz, d, hd, rfl⟩ := hr
  obtain ⟨l', hl', sz', hsz', d', hd', rfl⟩ := hr'
  exact
    { stationarity := h.lagrangianGradient hy hz hl hl'
      complementarity := hs.hadamard hz hsz hsz'
      equality := h.equality
      inequality := h.inequality.subtract hs hd hd' }

end Evaluation.Reordered

/-! ## What is read off a residual -/

namespace Residual.Reordered

variable {r r' : Residual K} (h : Residual.Reordered σ ρ r r')

include h

theorem primal_eq : r'.primal = r.primal := by
  rw [primal, primal, h.equality.normTwo_eq, h.inequality.normTwo_eq]

theorem dual_eq : r'.dual = r.dual := h.stationarity.normInf_eq

theorem complementarityError_eq (mu : K) :
    r'.complementarityError mu = r.complementarityError mu :=
  congrArg Scalar.sqrt (h.complementarity.foldl_add_eq (fun w => (w - mu) * (w - mu)) 0)

theorem isOptimal_eq (mu epsilon : K) : r'.isOptimal mu epsilon = r.isOptimal mu epsilon := by
  rw [isOptimal, isOptimal, optimalityError, optimalityError, h.primal_eq, h.dual_eq,
    h.complementarityError_eq]

/-- **The barrier parameter goes down alike.** -/
theorem update_eq (b : Barrier K) (mu : K) : b.update r' mu = b.update r mu := by
  have hdescend : ∀ rounds mu, b.descend r' mu rounds = b.descend r mu rounds := by
    intro rounds
    induction rounds with
    | zero => exact fun mu => rfl
    | succ rounds ih =>
      intro mu
      rw [Barrier.descend, Barrier.descend, Barrier.isSolved, Barrier.isSolved, h.isOptimal_eq]
      simp only [ih]
  exact hdescend _ mu

end Residual.Reordered

/-! ## Iterates and directions -/

/-- **An iterate in another order.** -/
structure Iterate.Reordered (σ : Perm (Fin n)) (ρ : ∀ kind, Perm (Fin (m kind)))
    (it it' : Iterate K) : Prop where
  x : Permuted σ it.x it'.x
  s : Permuted (ρ .inequality) it.s it'.s
  y : Permuted (ρ .equality) it.y it'.y
  z : Permuted (ρ .inequality) it.z it'.z
  curvature : Matrix.Reordered σ σ it.curvature it'.curvature
  mu : it'.mu = it.mu

/-- **A direction in another order.** -/
structure Direction.Reordered (σ : Perm (Fin n)) (ρ : ∀ kind, Perm (Fin (m kind)))
    (d d' : Direction K) : Prop where
  dx : Permuted σ d.dx d'.dx
  ds : Permuted (ρ .inequality) d.ds d'.ds
  dy : Permuted (ρ .equality) d.dy d'.dy
  dz : Permuted (ρ .inequality) d.dz d'.dz

namespace Iterate.Reordered

variable {it it' : Iterate K}

theorem symm (h : Iterate.Reordered σ ρ it it') :
    Iterate.Reordered σ.symm (fun kind => (ρ kind).symm) it' it where
  x := h.x.symm
  s := h.s.symm
  y := h.y.symm
  z := h.z.symm
  curvature := h.curvature.symm
  mu := h.mu.symm

theorem fits (h : Iterate.Reordered σ ρ it it') : it.Fits n (m .equality) (m .inequality) :=
  ⟨h.x.left, h.s.left, h.y.left, h.z.left, h.curvature.left⟩

end Iterate.Reordered

/-! ## The Newton system -/

namespace Matrix.Reordered

variable {k l : ℕ} {τ : Perm (Fin k)} {κ : Perm (Fin l)} {a b : Matrix K}

/-- A matrix in another order, against a vector in another order. -/
theorem mulVec_comp (h : Matrix.Reordered τ κ a b) (u : Fin l → K) :
    (b.entries k l).mulVec (u ∘ κ.symm) = (a.entries k l).mulVec u ∘ τ.symm := by
  ext i
  obtain ⟨i, rfl⟩ := τ.surjective i
  simp only [Function.comp_apply, Equiv.symm_apply_apply]
  refine (Equiv.sum_comp κ _).symm.trans (Finset.sum_congr rfl fun j _ => ?_)
  simp only [Function.comp_apply, Equiv.symm_apply_apply, entries_apply, h.coeff]

theorem transpose_mulVec_comp (h : Matrix.Reordered τ κ a b) (u : Fin k → K) :
    (b.entries k l).transpose.mulVec (u ∘ τ.symm) =
      (a.entries k l).transpose.mulVec u ∘ κ.symm := by
  have hentries : ∀ c : Matrix K, (c.entries k l).transpose = c.transpose.entries l k := by
    intro c
    ext i j
    exact (coeff_transpose c i j).symm
  rw [hentries, hentries]
  exact h.transpose.mulVec_comp u

end Matrix.Reordered

theorem Matrix.Permuted.vec_eq {k : ℕ} {τ : Perm (Fin k)} {a b : Matrix K} (h : Permuted τ a b) :
    b.vec k = a.vec k ∘ τ.symm := by
  rw [← h.vec_comp, Function.comp_assoc, Equiv.self_comp_symm, Function.comp_id]

namespace NewtonSystem

variable {it it' : Iterate K} {e e' : Evaluation K} {r r' : Residual K} {mu : K}

/-- **The four equations in another order** have the solutions of the four equations. -/
theorem Solves.reorder {dx : Fin n → K} {ds dz : Fin (m .inequality) → K}
    {dy : Fin (m .equality) → K} (hit : Iterate.Reordered σ ρ it it')
    (he : Evaluation.Reordered σ ρ e e') (h : Solves it e mu dx ds dy dz) :
    Solves it' e' mu (dx ∘ σ.symm) (ds ∘ (ρ .inequality).symm) (dy ∘ (ρ .equality).symm)
      (dz ∘ (ρ .inequality).symm) where
  stationarity := by
    rw [hit.curvature.mulVec_comp, he.equalityJacobian.transpose_mulVec_comp,
      he.inequalityJacobian.transpose_mulVec_comp, he.gradient.vec_eq, hit.y.vec_eq, hit.z.vec_eq,
      he.equalityJacobian.transpose_mulVec_comp, he.inequalityJacobian.transpose_mulVec_comp]
    exact congrArg (· ∘ σ.symm) h.stationarity
  complementarity := by
    intro i
    rw [hit.s.vec_eq, hit.z.vec_eq]
    exact h.complementarity ((ρ .inequality).symm i)
  equality := by
    rw [he.equalityJacobian.mulVec_comp, he.equality.vec_eq]
    exact congrArg (· ∘ (ρ .equality).symm) h.equality
  inequality := by
    rw [he.inequalityJacobian.mulVec_comp, he.inequality.vec_eq, hit.s.vec_eq]
    exact congrArg (· ∘ (ρ .inequality).symm) h.inequality

/-- **A direction found in one order is found in the other.**  The solution of the four equations is
taken from one order to the other, and so is the fact that there is only one. -/
theorem direction_of_reordered (hit : Iterate.Reordered σ ρ it it')
    (he : Evaluation.Reordered σ ρ e e') (hr : Residual.compute e it.s it.y it.z = .ok r)
    (hr' : Residual.compute e' it'.s it'.y it'.z = .ok r') {d : Direction K}
    (hd : (⟨n, m .equality, m .inequality⟩ : NewtonSystem).direction it e r mu = .ok d) :
    ∃ d', (⟨n, m .equality, m .inequality⟩ : NewtonSystem).direction it' e' r' mu = .ok d' ∧
      Direction.Reordered σ ρ d d' := by
  obtain ⟨d₀, hd₀, hfits, hsolves, _⟩ | ⟨⟨c, hsingular⟩, _⟩ :=
    direction_cases hit.fits he.fits hr mu
  · obtain rfl := Except.ok.inj (hd.symm.trans hd₀)
    have hsolution := Solves.reorder hit he ((hsolves _).mpr rfl)
    obtain ⟨d', hd', hfits', hsolves', _⟩ | ⟨_, hnone, _⟩ :=
      direction_cases hit.symm.fits he.symm.fits hr' mu
    · have hparts := (hsolves' (_, _, _, _)).mp hsolution
      simp only [Prod.mk.injEq] at hparts
      obtain ⟨hdx, hds, hdy, hdz⟩ := hparts
      refine ⟨d', hd', ?_⟩
      exact
        { dx := .of_vec hfits.dx hfits'.dx fun i => by rw [← hdx]; simp
          ds := .of_vec hfits.ds hfits'.ds fun i => by rw [← hds]; simp
          dy := .of_vec hfits.dy hfits'.dy fun i => by rw [← hdy]; simp
          dz := .of_vec hfits.dz hfits'.dz fun i => by rw [← hdz]; simp }
    · refine absurd ⟨(_, _, _, _), hsolution, ?_⟩ hnone
      rintro ⟨dx, ds, dy, dz⟩ hother
      have hback := (hsolves (_, _, _, _)).mp (Solves.reorder hit.symm he.symm hother)
      simp only [Prod.mk.injEq] at hback ⊢
      obtain ⟨hdx, hds, hdy, hdz⟩ := hback
      rw [← hdx, ← hds, ← hdy, ← hdz]
      simp
  · cases hsingular.symm.trans hd

/-- **The direction in another order**: it corresponds, or both systems are found singular. -/
theorem direction_reordered (hit : Iterate.Reordered σ ρ it it')
    (he : Evaluation.Reordered σ ρ e e') (hr : Residual.compute e it.s it.y it.z = .ok r)
    (hr' : Residual.compute e' it'.s it'.y it'.z = .ok r') (mu : K) :
    (∃ d d', (⟨n, m .equality, m .inequality⟩ : NewtonSystem).direction it e r mu = .ok d ∧
      (⟨n, m .equality, m .inequality⟩ : NewtonSystem).direction it' e' r' mu = .ok d' ∧
      Direction.Reordered σ ρ d d') ∨
    ∃ err err', (⟨n, m .equality, m .inequality⟩ : NewtonSystem).direction it e r mu = .error err ∧
      (⟨n, m .equality, m .inequality⟩ : NewtonSystem).direction it' e' r' mu = .error err' := by
  rcases hd : (⟨n, m .equality, m .inequality⟩ : NewtonSystem).direction it e r mu with err | d
  · rcases hd' : (⟨n, m .equality, m .inequality⟩ : NewtonSystem).direction it' e' r' mu with
      err' | d'
    · exact .inr ⟨err, err', rfl, rfl⟩
    · obtain ⟨d, hback, _⟩ := direction_of_reordered hit.symm he.symm hr' hr hd'
      cases hd.symm.trans hback
  · obtain ⟨d', hd', hreordered⟩ := direction_of_reordered hit he hr hr' hd
    exact .inl ⟨d, d', rfl, hd', hreordered⟩

end NewtonSystem

/-! ## The line search -/

namespace LineSearch

variable {d d' : Direction K} {mu : K}

theorem violation_reordered (hpq : Program.Reordered σ ρ p q) (hp : p.TotalWith n size)
    (hq : q.TotalWith n size') (o : Options K) (hx : Permuted σ x x')
    (hs : Permuted (ρ .inequality) s s') :
    (ofOptions q size' o).violation x' s' = (ofOptions p size o).violation x s := by
  have hvalues : ∀ kind, ∃ v v', size.values p kind x = .ok v ∧ size'.values q kind x' = .ok v' ∧
      Permuted (ρ kind) v v' := by
    intro kind
    obtain ⟨v, hv, _⟩ := hp.exists_values hx.left
    obtain ⟨v', hv', _⟩ := hq.exists_values hx.right
    refine ⟨v, v', hv, hv', hpq.values kind x x' v v' hx ?_ ?_⟩
    · rw [← hp.values_eq hx.left, hv]
    · rw [← hq.values_eq hx.right, hv']
  obtain ⟨g, g', hg, hg', hgg⟩ := hvalues .equality
  obtain ⟨h, h', hh, hh', hhh⟩ := hvalues .inequality
  obtain ⟨c, hc, _⟩ : ∃ c, h.subtract s = .ok c ∧ _ :=
    Matrix.exists_zipWith? (hhh.left.trans hs.left.symm)
  obtain ⟨c', hc', _⟩ : ∃ c, h'.subtract s' = .ok c ∧ _ :=
    Matrix.exists_zipWith? (hhh.right.trans hs.right.symm)
  have hcc : Permuted (ρ .inequality) c c' := hhh.subtract hs hc hc'
  simp only [violation, ofOptions, hg, hg', hh, hh', hc, hc', ok_bind, hgg.normTwo_eq,
    hcc.normTwo_eq]

theorem measure_reordered (hpq : Program.Reordered σ ρ p q) (hp : p.TotalWith n size)
    (hq : q.TotalWith n size') (o : Options K) (hx : Permuted σ x x')
    (hs : Permuted (ρ .inequality) s s') (mu : K) :
    (ofOptions q size' o).measure x' s' mu = (ofOptions p size o).measure x s mu := by
  have hobjective : q.objective x' = p.objective x := by
    obtain ⟨f, hf, _⟩ := hp.total.objective x hx.left
    obtain ⟨f', hf', _⟩ := hq.total.objective x' hx.right
    rw [hf, hf', hpq.objective x x' f f' hx hf hf']
  have hmerit : (ofOptions q size' o).merit x' s' mu = (ofOptions p size o).merit x s mu := by
    simp only [merit, objective, ofOptions, hobjective, hs.sumLn_eq]
  rw [measure, measure, violation_reordered hpq hp hq o hx hs, hmerit]

/-- **A line search in another order** finds the same. -/
theorem search_reordered (hpq : Program.Reordered σ ρ p q) (hp : p.TotalWith n size)
    (hq : q.TotalWith n size') (o : Options K) (hx : Permuted σ x x')
    (hs : Permuted (ρ .inequality) s s') (hd : Direction.Reordered σ ρ d d') (alphaMax mu : K) :
    (ofOptions q size' o).search x' s' d' alphaMax mu =
      (ofOptions p size o).search x s d alphaMax mu := by
  refine search_congr (measure_reordered hpq hp hq o hx hs mu) (fun alpha => ?_) alphaMax
  obtain ⟨x₁, hx₁, _⟩ := Matrix.exists_add_scale hx.left hd.dx.left alpha
  obtain ⟨x₁', hx₁', _⟩ := Matrix.exists_add_scale hx.right hd.dx.right alpha
  obtain ⟨s₁, hs₁, _⟩ := Matrix.exists_add_scale hs.left hd.ds.left alpha
  obtain ⟨s₁', hs₁', _⟩ := Matrix.exists_add_scale hs.right hd.ds.right alpha
  rw [trial, trial, hx₁, hx₁', ok_bind, ok_bind, hs₁, hs₁', ok_bind, ok_bind]
  exact measure_reordered hpq hp hq o (hx.add (hd.dx.scale alpha) hx₁ hx₁')
    (hs.add (hd.ds.scale alpha) hs₁ hs₁') mu

end LineSearch

end InteriorPoint
