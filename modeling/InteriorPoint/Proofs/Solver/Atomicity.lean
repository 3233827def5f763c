import Mathlib
import InteriorPoint.Proofs.Solver.Consistency

/-!
# Proofs/Solver/Atomicity — a call that fails changes nothing

A call can fail while it looks at an iterate that was never examined, or while it computes a Newton
step.  It cannot fail after the step was stored: the look at the new iterate uses the evaluation
that the step has computed, and the shapes fit (`Steps.advance_of_error`).  So a failed call leaves
the solver as it was, and the same call fails the same way (`step_error_idempotent`).
-/

namespace InteriorPoint.Solver

variable {α : Type} [Scalar α] {s t : Solver α} {err : Error α}

/-- A look at an iterate whose evaluation is remembered does not fail. -/
theorem Examines.known_of_error (hs : Consistent s) (h : Examines s (.error err) t) :
    s.known = none ∧ t = { s with phase := .ready, known := none } := by
  cases h with
  | broken hmax hassess =>
    refine ⟨?_, rfl⟩
    rcases hknown : s.known with _ | e
    · rfl
    · obtain ⟨r, hr⟩ := hs.exists_assess hknown
      rw [hr] at hassess
      cases hassess

/-- **An error comes from the Newton step if one was due**, so none was stored. -/
theorem Steps.advance_of_error (hs : Settled s) (h : Steps s (.error err) t) (e : Evaluation α)
    (r : Residual α) (hphase : s.phase = .stepping e r) :
    (s.advance e r).result = .error err := by
  cases h with
  | examined hready _ => exact nomatch hphase.symm.trans hready
  | refused hphase' hadvance =>
    cases hphase.symm.trans hphase'
    exact hadvance
  | advanced _ hadvance hexamine =>
    have hknown := (hexamine.known_of_error (hs.toConsistent.commit hadvance)).1
    cases hknown

/-- **A call that fails leaves a consistent solver as it was.** -/
theorem Consistent.eq_of_error (hs : Consistent s) (h : Steps s (.error err) t) : t = s := by
  cases h with
  | examined hphase hexamine =>
    obtain ⟨hknown, rfl⟩ := hexamine.known_of_error hs
    rw [← hphase, ← hknown]
  | refused _ _ => rfl
  | advanced _ hadvance hexamine =>
    have hknown := (hexamine.known_of_error (hs.commit hadvance)).1
    cases hknown

/-- …and so a settled one. -/
theorem Steps.eq_of_error (hs : Settled s) (h : Steps s (.error err) t) : t = s :=
  hs.toConsistent.eq_of_error h

/-- **A call that fails changes nothing, and fails again in the same way however often it is
repeated**; if a Newton step was due, it is the step that failed, and it was not stored. -/
theorem step_error_idempotent {p : Program α} {o : Options α} (h : Reachable p o s)
    (herr : s.step.1.result = .error err) :
    s.step.2 = s ∧
    (∀ n, ((fun t : Solver α => t.step.2)^[n] s).step.1.result = .error err) ∧
    ∀ e r, s.phase = .stepping e r → (s.advance e r).result = .error err := by
  obtain ⟨_, _, _, hs⟩ := h.settled
  have hsteps : Steps s (.error err) s.step.2 := herr ▸ s.steps
  have hfix : s.step.2 = s := hsteps.eq_of_error hs
  refine ⟨hfix, ?_, hsteps.advance_of_error hs⟩
  intro n
  rw [Function.iterate_fixed hfix n]
  exact herr

/-! ## A program that breaks down at its first step -/

/-- One variable, and an equality that does not depend on it: the Newton system is singular. -/
def dependentProgram : Program Float where
  objective := .ok
  gradient := fun _ => .ok (Matrix.ones 1)
  constraints := [⟨.equality, fun _ => .ok (Matrix.ones 1), fun _ => .ok (Matrix.zeros 1 1)⟩]
  initialGuess := Matrix.zeros 1 1

/-- A run of it after its first record, with a Newton step due. -/
def dependentSolver : Solver Float :=
  (start dependentProgram .default ⟨1, [(.equality, 1)]⟩ dependentProgram.initialGuess).step.2

theorem reachable_dependentSolver :
    Reachable dependentProgram Options.default dependentSolver :=
  .step (.create (x := dependentProgram.initialGuess) rfl)

theorem dependentSolver_fails : dependentSolver.step.1.result = .error (.singular 1) := by
  have h : (match dependentSolver.step.1.result with
      | .error (.singular k) => decide (k = 1)
      | _ => false) = true := by decide +kernel
  split at h
  · rename_i hresult
    rw [hresult, of_decide_eq_true h]
  · cases h

/-- The run breaks down, and stays where it is. -/
theorem step_error_idempotent_dependent :
    (dependentSolver.step.1.result = .error (.singular 1) ∧
      dependentSolver.step.2 = dependentSolver ∧
      ∀ n, ((fun t : Solver Float => t.step.2)^[n] dependentSolver).step.1.result =
        .error (.singular 1)) ∧
      ∃ e r, dependentSolver.phase = .stepping e r ∧
        (dependentSolver.advance e r).result = .error (.singular 1) := by
  have hdue : (match dependentSolver.phase with
      | .stepping .. => true
      | _ => false) = true := by decide +kernel
  obtain ⟨hsame, hagain, hadvance⟩ :=
    step_error_idempotent reachable_dependentSolver dependentSolver_fails
  refine ⟨⟨dependentSolver_fails, hsame, hagain⟩, ?_⟩
  split at hdue
  · rename_i e r hphase
    exact ⟨e, r, hphase, hadvance e r hphase⟩
  · cases hdue

end InteriorPoint.Solver
