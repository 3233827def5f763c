import Mathlib
import InteriorPoint.Proofs.Solver.Consistency
import InteriorPoint.Proofs.Solver.Interior

/-!
# Proofs/Solver/Invariant — what holds of a solver after any calls

Dimensions are learned when a run begins and again when it is begun anew; from then on every part of
the solver keeps to them, through steps that go through and steps that fail.

* `reachable_invariant` — iterate and linear system have the dimensions of the program, slacks and
  multipliers are positive, and a step that is due starts from an evaluation and a residual that
  fit, the evaluation being finite.
-/

namespace InteriorPoint.Solver

variable {α : Type} [Scalar α] {s : Solver α} {e : Evaluation α} {r : Residual α}

/-- What is known of the program at the iterate of a consistent solver fits the iterate. -/
theorem Consistent.fits_of_assessed (hs : Consistent s) (h : s.Assessed e r) :
    e.Fits s.size.vars s.size.equalities s.size.inequalities ∧
      r.Fits s.size.vars s.size.equalities s.size.inequalities ∧ e.AllFinite := by
  have he := Evaluation.fits_of_compute hs.measures h.evaluation
  exact ⟨he, Residual.fits_of_compute he hs.fits.s hs.fits.y hs.fits.z h.residual,
    Evaluation.allFinite_of_compute h.evaluation⟩

/-- **The invariant of every reachable solver.**  All that is asked of the arithmetic is that one is
positive, and that only for the signs of slacks and multipliers. -/
theorem reachable_invariant {p : Program α} {o : Options α} (h : Reachable p o s) :
    s.iterate.Fits s.size.vars s.size.equalities s.size.inequalities ∧
    s.system = ⟨s.size.vars, s.size.equalities, s.size.inequalities⟩ ∧
    ((0 : α) < 1 → (∀ v ∈ s.iterate.s.data, 0 < v) ∧ ∀ v ∈ s.iterate.z.data, 0 < v) ∧
    ∀ e r, s.phase = .stepping e r →
      e.Fits s.size.vars s.size.equalities s.size.inequalities ∧
      r.Fits s.size.vars s.size.equalities s.size.inequalities ∧ e.AllFinite := by
  obtain ⟨_, _, _, hs⟩ := h.settled
  refine ⟨hs.fits, hs.system, fun hone => h.interior hone, ?_⟩
  intro e r hphase
  exact hs.toConsistent.fits_of_assessed (hs.stepping e r hphase)

/-! ## A run that is begun again in another dimension -/

/-- As many variables as the point has, none of them negative. -/
def orthantProgram : Program Float where
  objective := fun x => x.transpose.multiply x
  gradient := fun x => .ok (x.scale 2.0)
  constraints := [⟨.inequality, .ok, fun x => .ok (Matrix.identity x.rows)⟩]
  initialGuess := Matrix.column #[4.0]

/-- A run of it that was created with one variable, begun again with two, and gave a record. -/
def orthantSolver : Solver Float :=
  (start orthantProgram .default ⟨2, [(.inequality, 2)]⟩ (Matrix.column #[1.0, 2.0])).step.2

theorem reachable_orthantSolver : Reachable orthantProgram Options.default orthantSolver :=
  .step (.restart (x := Matrix.column #[1.0, 2.0])
    (.create (x := orthantProgram.initialGuess) rfl) rfl)

/-- Every part of the run has the new dimensions, and a step is due. -/
theorem reachable_invariant_orthant :
    orthantSolver.iterate.Fits 2 0 2 ∧ orthantSolver.system = ⟨2, 0, 2⟩ ∧
    ((∀ v ∈ orthantSolver.iterate.s.data, 0 < v) ∧ ∀ v ∈ orthantSolver.iterate.z.data, 0 < v) ∧
    ∃ e r, orthantSolver.phase = .stepping e r ∧ e.Fits 2 0 2 ∧ r.Fits 2 0 2 ∧ e.AllFinite := by
  have hsize : orthantSolver.size = ⟨2, [(.inequality, 2)]⟩ := by decide +kernel
  have hdue : (match orthantSolver.phase with
      | .stepping .. => true
      | _ => false) = true := by decide +kernel
  obtain ⟨hfits, hsystem, hpositive, hstepping⟩ := reachable_invariant reachable_orthantSolver
  rw [hsize] at hfits hsystem hstepping
  refine ⟨hfits, hsystem, hpositive (by decide), ?_⟩
  split at hdue
  · rename_i e r hphase
    exact ⟨e, r, hphase, hstepping e r hphase⟩
  · exact nomatch hdue

end InteriorPoint.Solver
