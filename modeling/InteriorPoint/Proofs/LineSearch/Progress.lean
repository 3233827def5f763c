import Mathlib
import InteriorPoint.Proofs.LineSearch.Backtracking
import InteriorPoint.Proofs.Matrix.Norms
import InteriorPoint.Proofs.Options

/-!
# Proofs/LineSearch/Progress — what an accepted trial has gained

A trial is accepted for its violation or for its merit.  Where the start violates a constraint, the
first test takes something off the violation.  Where it violates none there is nothing to take off:
the test then says that the trial violates none either, and the merit of the trial is not looked at.

* `accepted_progress` — an accepted trial has a smaller violation or a smaller merit, or start and
  trial are both feasible.
* `climb_accepted` — in the last case the merit may rise.
-/

namespace InteriorPoint.LineSearch

variable {K : Type} [ExactScalar K] {p : Program K} {size : Size} {o : Options K}
  {ls : LineSearch K} {x s : Matrix K} {d : Direction K} {alphaMax alpha mu : K}
  {start trial : Measures K}

/-- A violation is not negative. -/
theorem violation_nonneg (hroots : SquareRoots K) {theta : K} (h : ls.violation x s = .ok theta) :
    0 ≤ theta := by
  simp only [violation, bind_eq_ok, pure_eq_ok, scalarMax_eq] at h
  obtain ⟨g, _, h, _, v, _, rfl⟩ := h
  exact (g.normTwo_nonneg hroots).trans (le_max_left _ _)

theorem theta_nonneg (hroots : SquareRoots K) (h : ls.measure x s mu = .ok start) :
    0 ≤ start.theta := by
  simp only [measure, bind_eq_ok, pure_eq_ok] at h
  obtain ⟨theta, htheta, _, _, rfl⟩ := h
  exact violation_nonneg hroots htheta

/-- **What acceptance gains**, where violations are not negative. -/
theorem Accepts.gains (ho : o.validate = .ok ()) (hstart : 0 ≤ start.theta)
    (htrial : 0 ≤ trial.theta) (h : (ofOptions p size o).Accepts start trial) :
    trial.theta < start.theta ∨ trial.phi ≤ start.phi - o.gammaPhi * start.theta ∨
      start.theta = 0 ∧ trial.theta = 0 := by
  obtain htheta | hphi := h
  · have hgamma := (Options.inRange_of_validate ho .gammaTheta rfl).1
    change trial.theta ≤ (1 - o.gammaTheta) * start.theta at htheta
    obtain hpos | hzero := hstart.lt_or_eq
    · have hgain : 0 < o.gammaTheta * start.theta := mul_pos hgamma hpos
      left
      linarith
    · right; right
      rw [← hzero, mul_zero] at htheta
      exact ⟨hzero.symm, le_antisymm htheta htrial⟩
  · exact .inr (.inl hphi)

/-- **An accepted trial makes progress, unless there was no violation to reduce.**  Take exact
scalars with square roots and validated options.  If a search ends at a length because its trial was
accepted, then the trial has a smaller violation than the start, or its merit is smaller by
`gammaPhi` times the violation of the start, or both points are feasible.  So from a point that is
not feasible an accepted trial raises the merit only if it lowers the violation. -/
theorem accepted_progress (hroots : SquareRoots K) (ho : o.validate = .ok ())
    (hfound : ((ofOptions p size o).search x s d alphaMax mu).result = .ok (.accepted alpha)) :
    ∃ x' s' start trial, x.add (d.dx.scale alpha) = .ok x' ∧ s.add (d.ds.scale alpha) = .ok s' ∧
      (ofOptions p size o).measure x s mu = .ok start ∧
      (ofOptions p size o).measure x' s' mu = .ok trial ∧
      (trial.theta < start.theta ∨ trial.phi ≤ start.phi - o.gammaPhi * start.theta ∨
        start.theta = 0 ∧ trial.theta = 0) ∧
      (0 < start.theta → start.phi < trial.phi → trial.theta < start.theta) := by
  obtain ⟨start, trial, hstart, htrial, haccepts⟩ := exists_accepts_of_search hfound
  simp only [LineSearch.trial, bind_eq_ok] at htrial
  obtain ⟨x', hx', s', hs', htrial⟩ := htrial
  have hgains := haccepts.gains ho (theta_nonneg hroots hstart) (theta_nonneg hroots htrial)
  refine ⟨x', s', start, trial, hx', hs', hstart, htrial, hgains, fun hpos hrises => ?_⟩
  obtain htheta | hphi | ⟨hzero, _⟩ := hgains
  · exact htheta
  · have hgamma := (Options.inRange_of_validate ho .gammaPhi rfl).1
    have hgain : 0 < o.gammaPhi * start.theta := mul_pos hgamma hpos
    linarith
  · exact absurd hzero hpos.ne'

/-! ## The square of one variable -/

/-- **A first trial that passes** ends the search. -/
theorem search_of_accepts (hcount : 0 < ls.maxBacktracks) (hstart : ls.measure x s mu = .ok start)
    (htrial : ls.trial x s d mu alphaMax = .ok trial) (h : ls.Accepts start trial) :
    (ls.search x s d alphaMax mu).result = .ok (.accepted alphaMax) := by
  obtain ⟨left, hleft⟩ := Nat.exists_eq_add_one.mpr hcount
  rw [search, Traced.result_bind, Traced.result_liftM, hstart, hleft]
  rw [← trialLength_zero alphaMax] at htrial
  exact (backtrack_of_accepts htrial h).trans (by rw [trialLength_zero])

/-- The square of one variable, subject to constraints of one row each. -/
noncomputable def squareProgram (constraints : List (Constraint ℝ)) : Program ℝ where
  objective := fun x => .ok (.column #[x.coeff 0 0 ^ 2])
  gradient := fun x => .ok (.column #[x.coeff 0 0 + x.coeff 0 0])
  constraints := constraints
  initialGuess := .column #[1]

/-- A line search on it. -/
noncomputable def squareSearch (constraints : List (Constraint ℝ)) : LineSearch ℝ :=
  .ofOptions (squareProgram constraints) ⟨1, constraints.map fun c => (c.kind, 1)⟩ .default

/-- The variable has to be one. -/
noncomputable def isOne : Constraint ℝ :=
  ⟨.equality, fun x => .ok (.column #[x.coeff 0 0 - 1]), fun _ => .ok (.ones 1)⟩

/-- The direction of one variable, without slacks. -/
noncomputable def along (dx : ℝ) : Direction ℝ :=
  ⟨.column #[dx], .zeros 0 1, .zeros 0 1, .zeros 0 1⟩

/-- Without slacks the merit is the objective. -/
theorem measure_square {constraints : List (Constraint ℝ)} {theta u : ℝ} (mu : ℝ)
    (h : (squareSearch constraints).violation (.column #[u]) (.zeros 0 1) = .ok theta) :
    (squareSearch constraints).measure (.column #[u]) (.zeros 0 1) mu = .ok ⟨theta, u ^ 2⟩ := by
  have hobjective : (squareSearch constraints).objective (.column #[u]) = .ok (u ^ 2) := rfl
  have hlogs : (Matrix.zeros 0 1 : Matrix ℝ).sumLn = 0 := by
    simp [Matrix.sumLn, Matrix.zeros, Matrix.ofFn, Matrix.sum]
  rw [measure, h, ok_bind, merit, hobjective, ok_bind, hlogs, mul_zero, sub_zero]
  rfl

/-- A trial is measured at its point. -/
theorem trial_square {constraints : List (Constraint ℝ)} (u du mu : ℝ) :
    (squareSearch constraints).trial (.column #[u]) (.zeros 0 1) (along du) mu 1 =
      (squareSearch constraints).measure (.column #[u + du]) (.zeros 0 1) mu := by
  have hshape : (Matrix.column #[u]).shape = ((Matrix.column #[du]).scale 1).shape := rfl
  obtain ⟨m, hm, hrows⟩ : ∃ m, (Matrix.column #[u]).add _ = .ok m ∧ _ :=
    Matrix.exists_zipWith? hshape
  have hentry : m = .column #[u + du] := by
    refine Matrix.eq_of_vec (n := 1) hrows rfl fun i => ?_
    rw [Matrix.vec_apply, Matrix.coeff_of_add_eq_ok hm, Matrix.coeff_scale, mul_one,
      Subsingleton.elim i 0]
    rfl
  rw [LineSearch.trial, along, hm, ok_bind, hentry]
  rfl

theorem violation_isOne (u : ℝ) :
    (squareSearch [isOne]).violation (.column #[u]) (.zeros 0 1) = .ok |u - 1| := by
  have hnorm : (Matrix.column #[u - 1]).normTwo = |u - 1| := by
    change Real.sqrt (0 + (u - 1) * (u - 1)) = _
    rw [zero_add, Real.sqrt_mul_self_eq_abs]
  have hnone : (Matrix.column #[]).normTwo = (0 : ℝ) := Real.sqrt_zero
  change Except.ok (Scalar.max (Matrix.column #[u - 1]).normTwo (Matrix.column #[]).normTwo) = _
  rw [scalarMax_eq, hnorm, hnone, max_eq_left (abs_nonneg _)]

theorem violation_free (u : ℝ) :
    (squareSearch []).violation (.column #[u]) (.zeros 0 1) = .ok 0 := by
  have hnone : (Matrix.column #[]).normTwo = (0 : ℝ) := Real.sqrt_zero
  change Except.ok (Scalar.max (Matrix.column #[]).normTwo (Matrix.column #[]).normTwo) = _
  rw [scalarMax_eq, hnone, max_self]

/-- An infeasible start: on the way from `0` to `1` the merit rises and the violation falls. -/
theorem accepted_progress_towards_one : ∃ x' s' start trial,
    (Matrix.column #[(0 : ℝ)]).add ((along 1).dx.scale 1) = .ok x' ∧
    (Matrix.zeros 0 1).add ((along 1).ds.scale 1) = .ok s' ∧
    (squareSearch [isOne]).measure (.column #[0]) (.zeros 0 1) 0.1 = .ok start ∧
    (squareSearch [isOne]).measure x' s' 0.1 = .ok trial ∧
    start.phi < trial.phi ∧ trial.theta < start.theta := by
  have hstart : (squareSearch [isOne]).measure (.column #[0]) (.zeros 0 1) 0.1 = .ok ⟨1, 0⟩ := by
    rw [measure_square 0.1 (violation_isOne 0)]
    norm_num
  have htrial : (squareSearch [isOne]).trial (.column #[0]) (.zeros 0 1) (along 1) 0.1 1 =
      .ok ⟨0, 1⟩ := by
    rw [trial_square, measure_square 0.1 (violation_isOne _)]
    norm_num
  have haccepts : (squareSearch [isOne]).Accepts ⟨1, 0⟩ ⟨0, 1⟩ := by
    left
    norm_num [squareSearch, ofOptions, Options.default]
  obtain ⟨x', s', start, trial, hx', hs', hstart', htrial', -, hcost⟩ :=
    accepted_progress squareRoots_real Options.validate_default
      (search_of_accepts (by decide) hstart htrial haccepts)
  obtain rfl := Except.ok.inj (hstart.symm.trans hstart')
  rw [LineSearch.trial, hx', ok_bind, hs', ok_bind] at htrial
  obtain rfl := Except.ok.inj (htrial.symm.trans htrial')
  exact ⟨x', s', _, _, hx', hs', hstart, htrial, one_pos, hcost one_pos one_pos⟩

/-- **A climb that is accepted**: without constraints there is no violation to reduce, and the merit
rises from `1` to `4`. -/
theorem climb_accepted :
    (Options.default : Options ℝ).validate = .ok () ∧
    ((squareSearch []).search (.column #[1]) (.zeros 0 1) (along (-3)) 1 0.1).result =
      .ok (.accepted 1) ∧
    (squareSearch []).measure (.column #[1]) (.zeros 0 1) 0.1 = .ok ⟨0, 1⟩ ∧
    (squareSearch []).trial (.column #[1]) (.zeros 0 1) (along (-3)) 0.1 1 = .ok ⟨0, 4⟩ ∧
    ¬((0 : ℝ) < 0 ∨ (4 : ℝ) ≤ 1 - (squareSearch []).gammaPhi * 0) := by
  have hstart : (squareSearch []).measure (.column #[1]) (.zeros 0 1) 0.1 = .ok ⟨0, 1⟩ := by
    rw [measure_square 0.1 (violation_free 1), one_pow]
  have htrial : (squareSearch []).trial (.column #[1]) (.zeros 0 1) (along (-3)) 0.1 1 =
      .ok ⟨0, 4⟩ := by
    rw [trial_square, measure_square 0.1 (violation_free _)]
    norm_num
  have haccepts : (squareSearch []).Accepts ⟨0, 1⟩ ⟨0, 4⟩ := .inl (mul_zero _).ge
  exact ⟨Options.validate_default, search_of_accepts (by decide) hstart htrial haccepts, hstart,
    htrial, by norm_num⟩

end InteriorPoint.LineSearch
