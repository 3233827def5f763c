import Mathlib
import InteriorPoint.Proofs.Boundary
import InteriorPoint.Proofs.Curvature
import InteriorPoint.Proofs.Faults
import InteriorPoint.Proofs.Newton.Layout
import InteriorPoint.Proofs.Options
import InteriorPoint.Proofs.Solver.Atomicity
import InteriorPoint.Proofs.Solver.Invariant

/-!
# Proofs/Solver/Refusal — why a call fails

Every operation between two questions to the program is given matrices that fit, so none of the
checks of shapes and ranges inside a Newton step can fail; and from positive slacks and multipliers
the step to the boundary is never negative.  What is left are the program itself, a linear system
that is found singular, and a breakdown.

* `step_error_cause` — the causes of every failed call of a reachable solver.
-/

namespace InteriorPoint.Solver

variable {α : Type} [Scalar α] {s t : Solver α} {e : Evaluation α} {r : Residual α} {err : Error α}

/-- **The points at which a call asks the program**: the iterate, and points along the Newton
direction if a step is due. -/
inductive Asks (s : Solver α) : Matrix α → Prop where
  | iterate : Asks s s.iterate.x
  | along {e : Evaluation α} {r : Residual α} {d : Direction α} {alpha : α} {x : Matrix α}
    (hphase : s.phase = .stepping e r)
    (hd : s.system.direction s.iterate e r
      ((Barrier.ofOptions s.options).update r s.iterate.mu) = .ok d)
    (hx : s.iterate.x.add (d.dx.scale alpha) = .ok x) : Asks s x

/-- **The causes of a failed call.** -/
inductive Cause (s : Solver α) : Error α → Prop where
  /-- The program, at a point at which it was asked. -/
  | fault {x : Matrix α} {err : Error α} (hx : s.Asks x) (h : s.program.Fault s.size x err) :
    Cause s err
  | singular (column : ℕ) : Cause s (.singular column)
  | breakdown (quantity : Quantity) (v : α) : Cause s (.breakdown quantity v)

/-! ## The parts of a Newton step -/

theorem eq_breakdown_of_requireInterior {slacks z : Matrix α}
    (h : requireInterior slacks z = .error err) : ∃ v, err = .breakdown .slackOrMultiplier v := by
  rw [requireInterior] at h
  split at h
  · cases h
  · exact ⟨_, (Except.error.inj h).symm⟩

/-- **The next model of curvature**: the old one after a null step, and its update otherwise. -/
theorem exists_nextCurvature_eq {it : Iterate α} {next : Evaluation α} {x y z : Matrix α}
    {n p k : ℕ} (hit : it.Fits n p k) (he : e.Fits n p k) (hnext : next.Fits n p k)
    (hx : x.shape = (n, 1)) (hy : y.shape = (p, 1)) (hz : z.shape = (k, 1)) :
    ∃ d change, d.shape = (n, 1) ∧ change.shape = (n, 1) ∧
      nextCurvature it e next x y z =
        if Curvature.isNull d then .ok it.curvature
        else Curvature.update d change it.curvature := by
  obtain ⟨d, hd, hds⟩ : ∃ d, x.subtract it.x = .ok d ∧ _ :=
    Matrix.exists_zipWith? (hx.trans hit.x.symm)
  obtain ⟨l, hl, hls⟩ := Evaluation.exists_lagrangianGradient he hy hz
  obtain ⟨l', hl', hls'⟩ := Evaluation.exists_lagrangianGradient hnext hy hz
  obtain ⟨change, hchange, hchanges⟩ : ∃ c, l'.subtract l = .ok c ∧ _ :=
    Matrix.exists_zipWith? (hls'.trans hls.symm)
  refine ⟨d, change, hds.trans hx, hchanges.trans hls', ?_⟩
  rw [nextCurvature, hd, ok_bind, hl', ok_bind, hl, ok_bind, hchange, ok_bind]
  rfl

/-- The next model of curvature is missed only on a denominator. -/
theorem eq_breakdown_of_nextCurvature {it : Iterate α} {next : Evaluation α} {x y z : Matrix α}
    {n p k : ℕ} (hit : it.Fits n p k) (he : e.Fits n p k) (hnext : next.Fits n p k)
    (hx : x.shape = (n, 1)) (hy : y.shape = (p, 1)) (hz : z.shape = (k, 1))
    (h : nextCurvature it e next x y z = .error err) : ∃ q v, err = .breakdown q v := by
  obtain ⟨d, change, hds, hchanges, heq⟩ := exists_nextCurvature_eq hit he hnext hx hy hz
  rw [heq] at h
  split at h
  · exact nomatch h
  · obtain ⟨q', hq'⟩ | ⟨q, v, hq⟩ := Curvature.update_outcome hds hchanges hit.curvature
    · exact nomatch hq'.symm.trans h
    · exact ⟨q, v, Except.error.inj (h.symm.trans hq)⟩

/-- The direction of a step that is due fits, and it changes slacks and multipliers by finite
amounts. -/
theorem Settled.fits_of_direction {d : Direction α} {mu : α} (hs : Settled s)
    (hphase : s.phase = .stepping e r) (h : s.system.direction s.iterate e r mu = .ok d) :
    d.Fits s.size.vars s.size.equalities s.size.inequalities ∧ d.ds.isFinite = true ∧
      d.dz.isFinite = true := by
  obtain ⟨he, hr, _⟩ := hs.toConsistent.fits_of_assessed (hs.stepping e r hphase)
  rw [hs.system] at h
  exact NewtonSystem.fits_of_direction hs.fits he hr h

/-- **The causes of a Newton step that fails.** -/
theorem Settled.cause_of_advance (rules : SignRules α) (hs : Settled s)
    (hinterior : Interior s.iterate) (hvalid : s.options.validate = .ok ())
    (hphase : s.phase = .stepping e r) (h : (s.advance e r).result = .error err) :
    s.Cause err := by
  obtain ⟨he, hr, _⟩ := hs.toConsistent.fits_of_assessed (hs.stepping e r hphase)
  have htau := Options.inRange_of_validate hvalid .fractionToBoundary rfl
  simp only [advance, Traced.result_bind, except_bind_eq_error, Traced.result_liftM,
    Traced.result_note, Traced.result_pure] at h
  obtain h | ⟨d, hd, h⟩ := h
  · rw [hs.system] at h
    obtain ⟨c, rfl⟩ | ⟨v, rfl⟩ := NewtonSystem.cause_of_direction hs.fits he hr h
    · exact .singular c
    · exact .breakdown _ v
  -- from here on the direction fits, so nothing but the program and the two checks can fail
  obtain ⟨hdfits, hdsfinite, hdzfinite⟩ := hs.fits_of_direction hphase hd
  obtain ⟨alphaMax, hmax⟩ := exists_toBoundary rules htau (hs.fits.s.trans hdfits.ds.symm)
    hinterior.1 hdsfinite
  obtain ⟨alphaDual, hdual⟩ := exists_toBoundary rules htau (hs.fits.z.trans hdfits.dz.symm)
    hinterior.2 hdzfinite
  simp only [hmax, hdual, reduceCtorEq, Except.ok.injEq, false_or, exists_eq_left'] at h
  obtain h | ⟨found, _, h⟩ := h
  · obtain h | ⟨alpha, x, hx, h⟩ := LineSearch.fault_of_search (by exact hs.measures)
      (by exact hs.fits.s) (hdfits.dx.trans hs.fits.x.symm) (hdfits.ds.trans hs.fits.s.symm) h
    · exact .fault .iterate h
    · exact .fault (.along hphase hd hx) h
  obtain ⟨x, hx, hxs⟩ := Matrix.exists_add_scale hs.fits.x hdfits.dx found.length
  obtain ⟨slacks, hslacks, _⟩ := Matrix.exists_add_scale hs.fits.s hdfits.ds found.length
  obtain ⟨y, hy, hys⟩ := Matrix.exists_add_scale hs.fits.y hdfits.dy alphaDual
  obtain ⟨z, hz, hzs⟩ := Matrix.exists_add_scale hs.fits.z hdfits.dz alphaDual
  simp only [hx, hslacks, hy, hz, reduceCtorEq, Except.ok.injEq, false_or, exists_eq_left',
    exists_false, and_false, or_false] at h
  obtain h | ⟨_, _, h | ⟨next, hnext, h⟩⟩ := h
  · obtain ⟨v, rfl⟩ := eq_breakdown_of_requireInterior h
    exact .breakdown _ v
  · obtain h | ⟨q, v, rfl, _⟩ := Evaluation.fault_of_compute h
    · exact .fault (.along hphase hd hx) h
    · exact .breakdown q v
  · obtain ⟨q, v, rfl⟩ := eq_breakdown_of_nextCurvature hs.fits he
      (Evaluation.fits_of_compute hs.measures hnext) hxs hys hzs h
    exact .breakdown q v

/-! ## Every call -/

/-- The causes of a look at the iterate that fails. -/
theorem Consistent.cause_of_assess (hs : Consistent s) (hknown : s.known = none)
    (h : s.assess = .error err) : s.Cause err := by
  simp only [assess, hknown, bind_eq_error] at h
  obtain h | ⟨e, he, h | ⟨_, _, h⟩⟩ := h
  · obtain h | ⟨q, v, rfl, _⟩ := Evaluation.fault_of_compute h
    · exact .fault .iterate h
    · exact .breakdown q v
  · obtain ⟨r, hr⟩ := Residual.exists_compute (Evaluation.fits_of_compute hs.measures he)
      hs.fits.s hs.fits.y hs.fits.z
    cases hr.symm.trans h
  · exact absurd h pure_ne_error

/-- **The causes of a failed call.** -/
theorem Steps.cause (rules : SignRules α) (hs : Settled s) (hinterior : Interior s.iterate)
    (hvalid : s.options.validate = .ok ()) (h : Steps s (.error err) t) : s.Cause err := by
  cases h with
  | examined hphase hexamine =>
    cases hexamine with
    | broken _ hassess => exact hs.toConsistent.cause_of_assess (hs.ready hphase) hassess
  | refused hphase hadvance => exact hs.cause_of_advance rules hinterior hvalid hphase hadvance
  | advanced hphase hadvance hexamine =>
    -- once a step is stored, the look at the new iterate does not fail
    have hknown := (hexamine.known_of_error (hs.toConsistent.commit hadvance)).1
    exact nomatch hknown

/-- **Why a call fails.**  Apart from what a function of the program fails with at a point at which
it was asked, a call of a reachable solver fails only on a singular system, on a breakdown, or on a
function of the program that gave a matrix of the wrong shape.  Of the arithmetic only the rules of
signs are asked. -/
theorem step_error_cause (rules : SignRules α) {p : Program α} {o : Options α}
    (h : Reachable p o s) (herr : s.step.1.result = .error err) :
    (∃ x op f shape, s.Asks x ∧ p.Question s.size op f shape ∧ f x = .error err) ∨
    (∃ column, err = .singular column) ∨
    (∃ quantity v, err = .breakdown quantity v) ∨
    ∃ x op f shape m, s.Asks x ∧ p.Question s.size op f shape ∧ f x = .ok m ∧ m.shape ≠ shape ∧
      op ∈ [.gradient, .constraintValue, .constraintJacobian, .objective] ∧
      err = .mismatch op m.shape shape := by
  obtain ⟨hvalid, rfl, rfl, hs⟩ := h.settled
  have hsteps : Steps s (.error err) s.step.2 := herr ▸ s.steps
  obtain ⟨hx, ⟨hf, hraised⟩ | ⟨hf, hm, hne⟩⟩ | column | ⟨quantity, v⟩ :=
    hsteps.cause rules hs (h.interior rules.zero_lt_one) hvalid
  · exact .inl ⟨_, _, _, _, hx, hf, hraised⟩
  · exact .inr (.inr (.inr ⟨_, _, _, _, _, hx, hf, hm, hne, hf.op_mem, rfl⟩))
  · exact .inr (.inl ⟨column, rfl⟩)
  · exact .inr (.inr (.inl ⟨quantity, v, rfl⟩))

/-! ## A program whose objective has the wrong shape -/

/-- One variable without constraints, and an objective of two entries: it is asked for the first
time when a line search begins. -/
def misshapenProgram : Program Float where
  objective := fun _ => .ok (Matrix.zeros 2 1)
  gradient := fun _ => .ok (Matrix.ones 1)
  constraints := []
  initialGuess := Matrix.zeros 1 1

/-- A run of it after its first record, with a Newton step due. -/
def misshapenSolver : Solver Float :=
  (start misshapenProgram .default ⟨1, []⟩ misshapenProgram.initialGuess).step.2

theorem misshapenSolver_fails :
    misshapenSolver.step.1.result = .error (.mismatch .objective (2, 1) (1, 1)) := by
  have h : (match misshapenSolver.step.1.result with
      | .error (.mismatch op lhs rhs) => decide (op = .objective ∧ lhs = (2, 1) ∧ rhs = (1, 1))
      | _ => false) = true := by decide +kernel
  split at h
  · rename_i hresult
    obtain ⟨rfl, rfl, rfl⟩ := of_decide_eq_true h
    exact hresult
  · exact nomatch h

/-- The second call of the run names the objective, and it was asked at the iterate or on the way
from it. -/
theorem step_error_cause_misshapen :
    misshapenSolver.step.1.result = .error (.mismatch .objective (2, 1) (1, 1)) ∧
      ∃ x m, misshapenSolver.Asks x ∧ misshapenProgram.objective x = .ok m ∧ m.shape = (2, 1) := by
  have hreach : Reachable misshapenProgram Options.default misshapenSolver :=
    .step (.create (x := misshapenProgram.initialGuess) rfl)
  refine ⟨misshapenSolver_fails, ?_⟩
  obtain ⟨x, op, f, shape, hx, hf, hraised⟩ | ⟨_, ⟨⟩⟩ | ⟨_, _, ⟨⟩⟩ | ⟨x, op, f, shape, m, hx, _⟩ :=
    step_error_cause .double hreach misshapenSolver_fails
  · rcases hf with _ | _ | ⟨hc⟩ | ⟨hc⟩
    · exact nomatch hraised
    · exact nomatch hraised
    · exact absurd hc List.not_mem_nil
    · exact absurd hc List.not_mem_nil
  · exact ⟨x, _, hx, rfl, rfl⟩

end InteriorPoint.Solver
