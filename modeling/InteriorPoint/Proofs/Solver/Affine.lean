import Mathlib
import InteriorPoint.Proofs.Affine
import InteriorPoint.Proofs.Dual
import InteriorPoint.Proofs.Matrix.Norms
import InteriorPoint.Proofs.Solver.Memory
import InteriorPoint.Proofs.Solver.Progress

/-!
# Proofs/Solver/Affine — affine constraints are approached in proportion

A Newton direction solves the constraints as if they were affine.  If they are, a step of length
`alpha` along it leaves the part `1 - alpha` of the equalities and of what inequalities lack of
their slacks (`Consistent.shrinks`), and so of the violation (`LineSearch.Shrinks.violation`); the
line search has nothing to look for.  The violation of a run never grows (`Reachable.step_within`).

* `affine_shrinks` — what one step takes off, and what later records report.
-/

namespace InteriorPoint

variable {K : Type} [ExactScalar K] {p : Program K} {o : Options K}

/-! ## A part of the violation -/

namespace LineSearch

variable {ls : LineSearch K} {alpha : K} {x s x' s' : Matrix K}

/-- **The part `1 - alpha` is left** of the equalities, and of the inequalities less their slacks,
at another point. -/
structure Shrinks (ls : LineSearch K) (alpha : K) (x s x' s' : Matrix K) : Prop where
  equality : ∃ g, ls.size.values ls.program .equality x = .ok g ∧
    ls.size.values ls.program .equality x' = .ok (g.scale (1 - alpha))
  inequality : ∃ h h' v, ls.size.values ls.program .inequality x = .ok h ∧
    ls.size.values ls.program .inequality x' = .ok h' ∧ h.subtract s = .ok v ∧
    h'.subtract s' = .ok (v.scale (1 - alpha))

/-- **…and so of the violation.** -/
theorem Shrinks.violation (hroots : SquareRoots K) (halpha : alpha ≤ 1)
    (h : ls.Shrinks alpha x s x' s') :
    ∃ theta, ls.violation x s = .ok theta ∧ 0 ≤ theta ∧
      ls.violation x' s' = .ok ((1 - alpha) * theta) := by
  obtain ⟨⟨g, hg, hg'⟩, v, v', d, hv, hv', hd, hd'⟩ := h
  have hpart : 0 ≤ 1 - alpha := sub_nonneg.mpr halpha
  refine ⟨Scalar.max g.normTwo d.normTwo, ?_, ?_, ?_⟩
  · simp only [LineSearch.violation, hg, hv, hd, ok_bind, pure_eq_ok]
  · rw [scalarMax_eq]
    exact le_max_of_le_left (Matrix.normTwo_nonneg hroots g)
  · simp only [LineSearch.violation, hg', hv', hd', ok_bind, pure_eq_ok]
    rw [Matrix.normTwo_scale hroots g hpart, Matrix.normTwo_scale hroots d hpart, scalarMax_eq,
      scalarMax_eq, mul_max_of_nonneg _ _ hpart]

/-- **A search accepts its first trial** if that is long enough, or if there is no violation to take
anything off. -/
theorem Shrinks.accepted {d : Direction K} {mu : K} {found : Outcome K} (hroots : SquareRoots K)
    (halpha : alpha ≤ 1) (h : ls.Shrinks alpha x s x' s') (hcount : 0 < ls.maxBacktracks)
    (hx' : x.add (d.dx.scale alpha) = .ok x') (hs' : s.add (d.ds.scale alpha) = .ok s')
    (hcase : ls.gammaTheta ≤ alpha ∨ ls.violation x s = .ok 0)
    (hfound : (ls.search x s d alpha mu).result = .ok found) : found = .accepted alpha := by
  obtain ⟨theta, htheta, hnonneg, htheta'⟩ := h.violation hroots halpha
  refine accepted_of_search hcount hx' hs' htheta htheta' ?_ hfound
  rcases hcase with hlong | hzero
  · exact mul_le_mul_of_nonneg_right (sub_le_sub_left hlong 1) hnonneg
  · obtain rfl := Except.ok.inj (htheta.symm.trans hzero)
    rw [mul_zero, mul_zero]

end LineSearch

namespace Solver

variable {s t : Solver K} {e next : Evaluation K} {r : Residual K} {it : Iterate K}

/-- The line search of a solver. -/
def lineSearch (s : Solver K) : LineSearch K := .ofOptions s.program s.size s.options

/-- No call changes it. -/
theorem lineSearch_step (s : Solver K) : s.step.2.lineSearch = s.lineSearch := by
  obtain ⟨hprogram, hoptions⟩ := s.steps.settings
  rw [lineSearch, lineSearch, hprogram, hoptions, s.steps.size_eq]

/-! ## Along the direction -/

/-- The direction of a consistent solver solves the four equations. -/
theorem Consistent.solves_of_direction {d : Direction K} {mu : K} (hs : Consistent s)
    (hassessed : s.Assessed e r) (hd : s.system.direction s.iterate e r mu = .ok d) :
    NewtonSystem.Solves s.iterate e mu (d.dx.vec s.size.vars) (d.ds.vec s.size.inequalities)
      (d.dy.vec s.size.equalities) (d.dz.vec s.size.inequalities) := by
  obtain ⟨he, _, _⟩ := hs.fits_of_assessed hassessed
  have hcases := NewtonSystem.direction_cases hs.fits he hassessed.residual mu
  rw [show (⟨s.size.vars, s.size.equalities, s.size.inequalities⟩ : NewtonSystem) = s.system from
    hs.system.symm] at hcases
  obtain ⟨d', hd', _, hsolves, _⟩ | ⟨⟨c, hc⟩, _⟩ := hcases
  · obtain rfl := Except.ok.inj (hd.symm.trans hd')
    exact (hsolves (_, _, _, _)).mpr rfl
  · cases hd.symm.trans hc

/-- **Along the Newton direction affine constraints shrink in proportion.**  Its last two equations
say that the values of the constraints, with the slacks, change by their own negatives. -/
theorem Consistent.shrinks {d : Direction K} {mu alpha : K} {x₀ x' s' : Matrix K}
    (hs : Consistent s) (hp : s.program.Affine s.size.vars)
    (hsize : Size.compute s.program x₀ = .ok s.size) (hassessed : s.Assessed e r)
    (hd : s.system.direction s.iterate e r mu = .ok d)
    (hx' : s.iterate.x.add (d.dx.scale alpha) = .ok x')
    (hs' : s.iterate.s.add (d.ds.scale alpha) = .ok s') :
    s.lineSearch.Shrinks alpha s.iterate.x s.iterate.s x' s' := by
  obtain ⟨he, hr, _⟩ := hs.fits_of_assessed hassessed
  have hsolves := hs.solves_of_direction hassessed hd
  have hevaluation := hassessed.evaluation
  have hresidual := hassessed.residual
  simp only [Evaluation.compute, bind_eq_ok, pure_eq_ok] at hevaluation
  obtain ⟨_, _, g, hg, h, hh, jg, hjg, jh, hjh, _, _, rfl⟩ := hevaluation
  simp only [Residual.compute, bind_eq_ok, pure_eq_ok] at hresidual
  obtain ⟨_, _, _, _, v, hv, rfl⟩ := hresidual
  obtain ⟨g', hg', hgs, hgcoeff⟩ := hp.values_along hsize hs.fits.x hx' hg hjg
  obtain ⟨h', hh', hhs, hhcoeff⟩ := hp.values_along hsize hs.fits.x hx' hh hjh
  have hslacks : s'.shape = (s.size.inequalities, 1) :=
    (Matrix.shape_of_zipWith?_eq_ok hs').trans hs.fits.s
  obtain ⟨v', hv', hvs⟩ : ∃ v', h'.subtract s' = .ok v' ∧ _ :=
    Matrix.exists_zipWith? ((hhs.trans he.inequality).trans hslacks.symm)
  have hequality : g' = g.scale (1 - alpha) := by
    refine Matrix.eq_of_vec (hgs.trans he.equality) he.equality fun i => ?_
    have hnewton : ∑ l : Fin s.size.vars, jg.coeff i l * d.dx.coeff l 0 = -g.coeff i 0 :=
      congrFun hsolves.equality i
    rw [Matrix.vec_apply, Matrix.vec_apply, Matrix.coeff_scale, hgcoeff, hnewton]
    ring
  have hinequality : v' = v.scale (1 - alpha) := by
    refine Matrix.eq_of_vec ((hvs.trans hhs).trans he.inequality) hr.inequality fun i => ?_
    have hnewton : ∑ l : Fin s.size.vars, jh.coeff i l * d.dx.coeff l 0 - d.ds.coeff i 0 =
        -(h.coeff i 0 - s.iterate.s.coeff i 0) := congrFun hsolves.inequality i
    rw [Matrix.vec_apply, Matrix.vec_apply, Matrix.coeff_scale, Matrix.coeff_of_subtract_eq_ok hv',
      Matrix.coeff_of_subtract_eq_ok hv, Matrix.coeff_of_add_eq_ok hs', Matrix.coeff_scale, hhcoeff]
    linear_combination alpha * hnewton
  exact ⟨⟨g, hg, hequality ▸ hg'⟩, h, h', v, hh, hh', hv, hinequality ▸ hv'⟩

/-- **A Newton step that is stored**: how far it goes along which direction, and that constraints
shrink along all of it. -/
theorem Reachable.shrinks_of_advance (hs : Reachable p o s) (hp : p.Affine s.size.vars)
    (hphase : s.phase = .stepping e r) (hadvance : (s.advance e r).result = .ok (it, next)) :
    ∃ d alphaMax found,
      s.system.direction s.iterate e r it.mu = .ok d ∧
      toBoundary s.iterate.s d.ds o.fractionToBoundary = .ok alphaMax ∧
      (s.lineSearch.search s.iterate.x s.iterate.s d alphaMax it.mu).result = .ok found ∧
      s.iterate.x.add (d.dx.scale found.length) = .ok it.x ∧
      s.iterate.s.add (d.ds.scale found.length) = .ok it.s ∧
      0 < found.length ∧ (o.maxBacktracks ≤ 2 ^ 31 → found.length ≤ alphaMax) ∧ alphaMax ≤ 1 ∧
      ∀ {alpha x' s'}, s.iterate.x.add (d.dx.scale alpha) = .ok x' →
        s.iterate.s.add (d.ds.scale alpha) = .ok s' →
        s.lineSearch.Shrinks alpha s.iterate.x s.iterate.s x' s' := by
  have hinterior := hs.interior zero_lt_one
  obtain ⟨x₀, hsize⟩ := hs.measured
  obtain ⟨hvalid, rfl, rfl, hsettled⟩ := hs.settled
  have hassessed := hsettled.stepping e r hphase
  obtain ⟨_, d, alphaMax, _, found, hd, hmax, _, hfound, hx, hslack, _⟩ := advance_eq_ok hadvance
  obtain ⟨hfits, _⟩ := hsettled.fits_of_direction hphase hd
  have htau := Options.inRange_of_validate hvalid .fractionToBoundary rfl
  obtain ⟨alphaMax', hmax', hpos, hle, _⟩ :=
    toBoundary_spec htau (hsettled.fits.s.trans hfits.ds.symm) hinterior.1
  obtain rfl := Except.ok.inj (hmax.symm.trans hmax')
  exact ⟨d, alphaMax, found, hd, hmax, hfound, hx, hslack,
    LineSearch.length_pos_of_search hpos hfound,
    fun hcount => LineSearch.length_le_of_search hpos hcount hfound, hle,
    fun hx' hs' => hsettled.toConsistent.shrinks hp hsize hassessed hd hx' hs'⟩

/-! ## Along a run -/

/-- **The violation at the iterate is at most `bound`.** -/
def Within (bound : K) (s : Solver K) : Prop :=
  ∃ theta, s.lineSearch.violation s.iterate.x s.iterate.s = .ok theta ∧ theta ≤ bound

/-- **A call never makes the violation larger**, as long as all trials have their numbers for
exponents. -/
theorem Reachable.step_within {bound : K} (hroots : SquareRoots K)
    (hcount : o.maxBacktracks ≤ 2 ^ 31) (hs : Reachable p o s) (hp : p.Affine s.size.vars)
    (h : s.Within bound) : s.step.2.Within bound := by
  obtain ⟨theta, htheta, hle⟩ := h
  rw [Within, lineSearch_step]
  obtain heq | ⟨e, r, next, hphase, hadvance⟩ := s.steps.iterate_cases
  · rw [heq]
    exact ⟨theta, htheta, hle⟩
  · obtain ⟨d, alphaMax, found, _, _, _, hx, hslack, hpos, hlength, hmax, hshrinks⟩ :=
      hs.shrinks_of_advance hp hphase hadvance
    obtain ⟨theta', hbefore, hnonneg, hafter⟩ :=
      (hshrinks hx hslack).violation hroots ((hlength hcount).trans hmax)
    obtain rfl := Except.ok.inj (htheta.symm.trans hbefore)
    refine ⟨_, hafter, le_trans ?_ hle⟩
    exact mul_le_of_le_one_left hnonneg (sub_le_self 1 hpos.le)

/-- …nor do any number of calls. -/
theorem Reachable.after_within {bound : K} (hroots : SquareRoots K)
    (hcount : o.maxBacktracks ≤ 2 ^ 31) (hs : Reachable p o s) (hp : p.Affine s.size.vars)
    (h : s.Within bound) (j : ℕ) : (s.after j).Within bound := by
  induction j generalizing s with
  | zero => exact h
  | succ j ih =>
    rw [after_succ]
    exact ih hs.step (s.steps.size_eq ▸ hp) (hs.step_within hroots hcount hp h)

/-- A record that is no failure reports the violation at the iterate, which is not negative. -/
theorem Reachable.violation_of_record {record : Record K} (hroots : SquareRoots K)
    (hs : Reachable p o s) (hresult : s.step.1.result = .ok record)
    (hfailed : record.progress ≠ .failed) :
    s.step.2.lineSearch.violation s.step.2.iterate.x s.step.2.iterate.s = .ok record.primal ∧
      0 ≤ record.primal := by
  obtain ⟨_, _, _, hsettled⟩ := hs.settled
  have hsteps : Steps s (.ok record) s.step.2 := hresult ▸ s.steps
  obtain ⟨e, r, hassessed, hrecord⟩ := hsteps.reports hsettled hfailed
  have hprimal : record.primal = r.primal := congrArg Record.primal hrecord
  rw [hprimal]
  refine ⟨hassessed.violation_eq, ?_⟩
  rw [Residual.primal, scalarMax_eq]
  exact le_max_of_le_left (Matrix.normTwo_nonneg hroots _)

/-- **A later record reports no larger violation.** -/
theorem Reachable.primal_le {a b : Record K} (hroots : SquareRoots K)
    (hcount : o.maxBacktracks ≤ 2 ^ 31) (hs : Reachable p o s) (hp : p.Affine s.size.vars)
    (ha : s.step.1.result = .ok a) (hafailed : a.progress ≠ .failed) {j : ℕ}
    (hb : (s.after j).step.1.result = .ok b) (hbfailed : b.progress ≠ .failed) :
    b.primal ≤ a.primal := by
  have hfirst : s.step.2.Within a.primal :=
    ⟨a.primal, (hs.violation_of_record hroots ha hafailed).1, le_rfl⟩
  have hlater : (s.after (j + 1)).Within a.primal :=
    hs.step.after_within hroots hcount (s.steps.size_eq ▸ hp) hfirst j
  rw [after_add] at hlater
  obtain ⟨theta, htheta, hle⟩ := hlater
  obtain ⟨hviolation, _⟩ := (hs.after j).violation_of_record hroots hb hbfailed
  obtain rfl := Except.ok.inj (hviolation.symm.trans htheta)
  exact hle

/-- Where slacks and multipliers are all one, the error of complementarity is not below one. -/
theorem not_isOptimal_of_ones {y : Matrix K} {k : ℕ} {tolerance : K} (hroots : SquareRoots K)
    (hk : 0 < k) (htolerance : tolerance < 1)
    (hr : Residual.compute e (Matrix.ones k) y (Matrix.ones k) = .ok r) :
    r.isOptimal 0 tolerance = false := by
  have hsum : r.complementarity.data.foldl (fun acc v => acc + (v - 0) * (v - 0)) 0 = (k : K) := by
    simp only [Residual.compute, bind_eq_ok, pure_eq_ok] at hr
    obtain ⟨_, _, c, hc, _, _, rfl⟩ := hr
    have hshape : c.shape = (k, 1) := Matrix.shape_of_zipWith?_eq_ok hc
    rw [← Array.foldl_toList, ExactScalar.foldl_add_eq, Matrix.toList_data_of_shape hshape,
      List.map_map, zero_add]
    have hone : ∀ i ∈ List.finRange k,
        ((fun v => (v - 0) * (v - 0)) ∘ c.vec k) i = (1 : K) := by
      intro i _
      simp only [Function.comp_apply, Matrix.vec_apply, Matrix.coeff_of_hadamard_eq_ok hc,
        Matrix.coeff_ones i.isLt, sub_zero, mul_one]
    rw [List.map_congr_left hone]
    simp
  have herror : 1 ≤ r.complementarityError 0 := by
    rw [Residual.complementarityError, hsum]
    obtain ⟨hnonneg, hsquare⟩ := hroots k (Nat.cast_nonneg k)
    by_contra hlt
    have hk : (1 : K) ≤ k := Nat.one_le_cast.mpr hk
    have hsmall := mul_lt_one_of_nonneg_of_lt_one_left hnonneg (not_le.mp hlt) (not_le.mp hlt).le
    exact absurd hk (not_le.mpr (hsquare ▸ hsmall))
  refine decide_eq_false fun hle => ?_
  rw [Residual.optimalityError, scalarMax_eq] at hle
  exact absurd (herror.trans ((le_max_right _ _).trans hle)) (not_le.mpr htolerance)

/-- An affine block. -/
def affineBlock (kind : ConstraintKind) (a b : Matrix K) : Constraint K :=
  ⟨kind, fun x => do (← a.multiply x).add b, fun _ => .ok a⟩

/-- The square of the distance from the corner of a quadrant, on the line `x + y = 2`. -/
noncomputable def lineProgram : Program ℝ where
  objective := fun x => x.transpose.multiply x
  gradient := fun x => .ok (x.scale 2)
  constraints :=
    [affineBlock .equality (Matrix.ofRows #v[#v[1, 1]]) (Matrix.column #[-2]),
      affineBlock .inequality (Matrix.identity 2) (Matrix.zeros 2 1)]
  initialGuess := Matrix.column #[3, 1]

theorem affine_lineProgram : lineProgram.Affine 2 := by
  simp only [Program.Affine, lineProgram, List.forall_mem_cons]
  exact ⟨⟨1, _, _, rfl, rfl, fun _ _ => ⟨rfl, rfl⟩⟩,
    ⟨2, _, _, rfl, rfl, fun _ _ => ⟨rfl, rfl⟩⟩, nofun⟩

theorem total_lineProgram : lineProgram.Total 2 where
  objective _ hx := Matrix.exists_multiply (Matrix.shape_transpose_of_shape hx) hx
  gradient _ hx := ⟨_, rfl, hx⟩
  constraint := affine_lineProgram.steady

/-- Its dimensions. -/
def lineSize : Size := ⟨2, [(.equality, 1), (.inequality, 2)]⟩

/-- A run of it at its beginning. -/
noncomputable def lineSolver (u v : ℝ) : Solver ℝ :=
  start lineProgram .default lineSize (Matrix.column #[u, v])

theorem compute_lineProgram (u v : ℝ) : Size.compute lineProgram (Matrix.column #[u, v]) =
    .ok lineSize := rfl

theorem reachable_lineSolver (u v : ℝ) :
    Reachable lineProgram Options.default (lineSolver u v) := by
  refine .create (x := Matrix.column #[u, v]) ?_
  rw [create, Options.validate_default, ok_bind, compute_lineProgram, ok_bind]
  rfl

theorem answered_lineSolver {s : Solver ℝ} (hs : Reachable lineProgram Options.default s)
    (hvars : s.size.vars = 2) : s.Answered := by
  obtain ⟨_, hp, _⟩ := hs.settled
  obtain ⟨x₀, hsize⟩ := hs.measured
  intro x err hx
  rw [hp]
  exact (hvars ▸ total_lineProgram : lineProgram.Total s.size.vars).not_fault hsize hx

/-- Its first record is pending. -/
theorem pending_lineSolver (u v : ℝ) : ∃ record e r,
    (lineSolver u v).step.1.result = .ok record ∧ record.progress = .pending ∧
      (lineSolver u v).step.2.phase = .stepping e r ∧ (lineSolver u v).step.2.iterations = 0 ∧
      (lineSolver u v).step.2.iterate = (lineSolver u v).iterate := by
  obtain ⟨_, _, _, hs⟩ := (reachable_lineSolver u v).settled
  obtain ⟨e, r, hassess⟩ := hs.toConsistent.exists_assess_of_answered
    (answered_lineSolver (reachable_lineSolver u v) rfl)
  have htolerance : (Options.default : Options ℝ).globalTolerance < 1 := by
    norm_num [Options.default]
  have hopen : r.isOptimal 0 (lineSolver u v).options.globalTolerance = false :=
    not_isOptimal_of_ones squareRoots_real Nat.two_pos htolerance
      (hs.toConsistent.assessed hassess).residual
  have hmax : ¬(lineSolver u v).options.maxIterations ≤ (lineSolver u v).iterations :=
    Nat.not_succ_le_zero 299
  have hstep : (lineSolver u v).step = (lineSolver u v).examine := rfl
  rw [hstep, examine, if_neg hmax, hassess]
  simp only [hopen]
  exact ⟨_, e, r, rfl, rfl, rfl, rfl, rfl⟩

/-- Its first Newton step is stored, as the row of its one equality is not zero. -/
theorem stored_lineSolver {u v : ℝ} {e : Evaluation ℝ} {r : Residual ℝ}
    (hphase : (lineSolver u v).step.2.phase = .stepping e r) :
    ∃ it next, ((lineSolver u v).step.2.advance e r).result = .ok (it, next) := by
  have hreach := (reachable_lineSolver u v).step
  have hsize : (lineSolver u v).step.2.size = lineSize := (steps _).size_eq
  obtain ⟨hvalid, hp, ho, hs⟩ := hreach.settled
  have hjacobian : e.equalityJacobian = Matrix.ofRows #v[#v[1, 1]] := by
    have hx := hs.fits.x
    have hevaluation := (hs.stepping e r hphase).evaluation
    rw [hp, hsize] at hevaluation
    rw [hsize] at hx
    simp only [Evaluation.compute, bind_eq_ok, pure_eq_ok] at hevaluation
    obtain ⟨_, _, _, _, _, _, _, hjacobian, _, _, _, _, rfl⟩ := hevaluation
    rw [affine_lineProgram.steady.jacobians_eq (compute_lineProgram u v) hx,
      Program.stackedJacobians_singleton rfl rfl (Matrix.shape_eq_iff.mp hx).1.symm] at hjacobian
    exact (Except.ok.inj hjacobian).symm
  obtain ⟨_, hstored⟩ | ⟨hdependent, _⟩ := hs.advance_cases (hreach.interior zero_lt_one)
    (ho ▸ hvalid) hreach.isPosDef
    (answered_lineSolver hreach (congrArg Size.vars hsize)) hphase
  · refine hstored.resolve_right fun hcount => absurd hcount.1 ?_
    rw [ho]
    decide
  · rw [hsize, hjacobian] at hdependent
    have hrow : LinearIndependent ℝ ((Matrix.ofRows #v[#v[(1 : ℝ), 1]]).entries 1 2).row := by
      refine linearIndependent_unique_iff.mpr fun hzero => ?_
      have hentry : (1 : ℝ) = 0 := congrFun hzero 0
      exact one_ne_zero hentry
    exact absurd hrow hdependent

/-- The values of the constraints at a point. -/
theorem values_lineProgram (u v : ℝ) :
    lineSize.values lineProgram .equality (Matrix.column #[u, v]) =
        .ok (Matrix.column #[u + v - 2]) ∧
      lineSize.values lineProgram .inequality (Matrix.column #[u, v]) =
        .ok (Matrix.column #[u, v]) := by
  have hx : (Matrix.column #[u, v]).shape = (2, 1) := rfl
  rw [affine_lineProgram.steady.values_eq (compute_lineProgram u v) hx,
    affine_lineProgram.steady.values_eq (compute_lineProgram u v) hx]
  have hrow : (Matrix.ofRows #v[#v[(1 : ℝ), 1]]).shape = (1, 2) := rfl
  have hconstant : (Matrix.column #[(-2 : ℝ)]).shape = (1, 1) := rfl
  have hidentity : (Matrix.identity 2 : Matrix ℝ).shape = (2, 2) := rfl
  have hzeros : (Matrix.zeros 2 1 : Matrix ℝ).shape = (2, 1) := rfl
  obtain ⟨g, hg, hgs, hgcoeff⟩ := Matrix.exists_multiply_add hrow hconstant hx
  obtain ⟨h, hh, hhs, hhcoeff⟩ := Matrix.exists_multiply_add hidentity hzeros hx
  have hequality : g = Matrix.column #[u + v - 2] := by
    refine Matrix.eq_of_vec hgs rfl fun i => ?_
    rw [Matrix.vec_apply, hgcoeff, Fin.sum_univ_two, Subsingleton.elim i 0]
    change 1 * u + 1 * v + -2 = u + v - 2
    ring
  have hinequality : h = Matrix.column #[u, v] := by
    refine Matrix.eq_of_vec hhs rfl fun i => ?_
    rw [Matrix.vec_apply, hhcoeff, Fin.sum_univ_two, Matrix.coeff_zeros]
    fin_cases i
    · change 1 * u + 0 * v + 0 = u
      ring
    · change 0 * u + 1 * v + 0 = v
      ring
  exact ⟨Program.stackedValues_singleton rfl (hg.trans (congrArg _ hequality)) rfl,
    Program.stackedValues_singleton rfl (hh.trans (congrArg _ hinequality)) rfl⟩

/-- On the line, with the coordinates for slacks, nothing is violated. -/
theorem violation_lineSolver :
    (lineSolver 1 1).lineSearch.violation (lineSolver 1 1).iterate.x (lineSolver 1 1).iterate.s =
      .ok 0 := by
  obtain ⟨hequality, hinequality⟩ := values_lineProgram 1 1
  have hcolumn : (Matrix.column #[(1 : ℝ), 1]).shape = (2, 1) := rfl
  obtain ⟨d, hd, hshape⟩ :
      ∃ d, (Matrix.column #[(1 : ℝ), 1]).subtract (Matrix.ones 2) = .ok d ∧ _ :=
    Matrix.exists_zipWith? hcolumn
  have hzero : d = Matrix.column #[0, 0] := by
    refine Matrix.eq_of_vec (hshape.trans hcolumn) rfl fun i => ?_
    rw [Matrix.vec_apply, Matrix.coeff_of_subtract_eq_ok hd, Matrix.coeff_ones i.isLt]
    fin_cases i <;> exact sub_self 1
  change (lineSize.values lineProgram .equality (Matrix.column #[1, 1]) >>= fun g =>
    lineSize.values lineProgram .inequality (Matrix.column #[1, 1]) >>= fun h => do
      return Scalar.max g.normTwo (← h.subtract (Matrix.ones 2)).normTwo) = .ok 0
  have hsum : (1 : ℝ) + 1 - 2 = 0 := by norm_num
  have hsqrt : Scalar.sqrt (0 : ℝ) = 0 := Real.sqrt_zero
  rw [hequality, ok_bind, hinequality, ok_bind, hd, ok_bind, hzero, hsum, scalarMax_eq, pure_eq_ok]
  simp [Matrix.normTwo, Matrix.column, hsqrt]

end Solver

end InteriorPoint
