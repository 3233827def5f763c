import Mathlib
import InteriorPoint.Proofs.Double
import InteriorPoint.Proofs.Matrix.Norms
import InteriorPoint.Proofs.Solver.Consistency
import InteriorPoint.Proofs.Solver.Interior

/-!
# Proofs/Solver/Success — what a success says, in doubles

At a reachable iterate slacks and multipliers are positive (`Reachable.interior`) and the functions
of the program are finite, so neither the violation of the constraints nor the error of
complementarity can be a NaN.  The gradient of the Lagrangian can: its products with the multipliers
may overflow, and the difference of two infinities is a NaN.  The optimality error is a maximum and
passes over it.

* `success_bounds` — on a success, violation and complementarity are within the tolerance, and the
  largest entry of the gradient is exactly if no entry is a NaN.
* `success_with_nan` — a run that claims a success at an iterate where an entry is.
-/

namespace InteriorPoint

/-! ## A success -/

namespace Solver

variable {s t : Solver Float} {e : Evaluation Float} {r : Residual Float}

/-- **The violation of the constraints is a number**, as the values of a program are. -/
theorem Assessed.isNaN_primal (h : s.Assessed e r) : Scalar.isNaN r.primal = false := by
  have hfinite := Matrix.isFinite_iff.mp (Evaluation.allFinite_of_compute h.evaluation).equality
  have hresidual := h.residual
  simp only [Residual.compute, bind_eq_ok, pure_eq_ok] at hresidual
  obtain ⟨_, _, _, _, _, _, rfl⟩ := hresidual
  refine Double.isNaN_max_of_left (Matrix.isNaN_normTwo_iff.mpr fun v hv => ?_)
  exact Double.isNaN_of_isFinite (hfinite v hv)

/-- **The error of complementarity is a number** at an interior iterate: products of positive
doubles. -/
theorem Assessed.isNaN_complementarityError (h : s.Assessed e r) (hs : Interior s.iterate) :
    Scalar.isNaN (r.complementarityError 0) = false := by
  have hresidual := h.residual
  simp only [Residual.compute, bind_eq_ok, pure_eq_ok] at hresidual
  obtain ⟨_, _, sz, hsz, _, _, rfl⟩ := hresidual
  rw [Residual.complementarityError, ← Array.foldl_toList]
  refine Double.isNaN_sqrt_foldl (fun v => v - 0) _ fun v hv => ?_
  obtain ⟨a, ha, b, hb, rfl⟩ := Matrix.exists_of_mem_zipWith? hsz (Array.mem_toList_iff.mp hv)
  exact Double.isNaN_sub (Double.isNaN_mul_of_pos (hs.1 a ha) (hs.2 b hb)) rfl (.inr rfl)

/-- **What an optimality error within a tolerance says** of its three parts. -/
theorem Assessed.bounds_of_isOptimal {tolerance : Float} (h : s.Assessed e r)
    (hs : Interior s.iterate) (hopt : r.isOptimal 0 tolerance = true) :
    r.primal ≤ tolerance ∧ r.complementarityError 0 ≤ tolerance ∧
      (r.dual ≤ tolerance ↔ ∀ v ∈ r.stationarity.data, Scalar.isNaN v = false) := by
  have hmax : Scalar.max r.primal r.dual ≤ tolerance :=
    Double.left_le_of_max_le (Double.isNaN_max_of_left h.isNaN_primal) (of_decide_eq_true hopt)
  refine ⟨Double.left_le_of_max_le h.isNaN_primal hmax,
    Double.right_le_of_max_le (h.isNaN_complementarityError hs) (of_decide_eq_true hopt), ?_⟩
  rw [← Matrix.isNaN_normInf_iff]
  exact ⟨fun hdual => (Double.isNaN_of_le hdual).1,
    fun hdual => Double.right_le_of_max_le hdual hmax⟩

/-- A success ends a run, on the record that claims it. -/
theorem Steps.finished_of_success {record : Record Float} (h : Steps s (.ok record) t)
    (hsuccess : record.progress = .success) : ∃ terminal, t.phase = .finished record terminal := by
  have hexamines : ∀ {s : Solver Float}, Examines s (.ok record) t →
      ∃ terminal, t.phase = .finished record terminal := by
    intro s h
    cases h with
    | exhausted hmax => cases hsuccess
    | converged hmax hassess hopt => exact ⟨nofun, rfl⟩
    | pending hmax hassess hopt => cases hsuccess
  cases h with
  | @finished _ terminal hphase => exact ⟨terminal, hphase⟩
  | examined hphase hexamine => exact hexamines hexamine
  | advanced hphase hadvance hexamine => exact hexamines hexamine

/-- **What a success says.**  At the iterate where it is claimed, the violation of the constraints
and the error of complementarity are within the tolerance; the dual infeasibility is if and only if
no entry of the gradient of the Lagrangian is a NaN. -/
theorem success_bounds {p : Program Float} {o : Options Float} (h : Reachable p o s)
    {record : Record Float} (hresult : s.step.1.result = .ok record)
    (hsuccess : record.progress = .success) :
    ∃ e r, s.step.2.Assessed e r ∧ record = s.step.2.report r.primal r.dual .success ∧
      record.primal ≤ o.globalTolerance ∧ r.complementarityError 0 ≤ o.globalTolerance ∧
      (record.dual ≤ o.globalTolerance ↔ ∀ v ∈ r.stationarity.data, Scalar.isNaN v = false) := by
  have hsteps : Steps s (.ok record) s.step.2 := hresult ▸ s.steps
  obtain ⟨terminal, hphase⟩ := hsteps.finished_of_success hsuccess
  obtain ⟨_, _, ho, hsettled⟩ := h.step.settled
  obtain ⟨e, r, hassessed, hopt, hrecord⟩ := hsettled.finished record terminal hphase hsuccess
  rw [ho] at hopt
  have hbounds := hassessed.bounds_of_isOptimal (h.step.interior (by decide)) hopt
  refine ⟨e, r, hassessed, hrecord, ?_⟩
  rw [hrecord]
  exact hbounds

/-! ## Two runs -/

/-- A record with a property that can be evaluated. -/
theorem exists_record {test : Record Float → Bool}
    (h : s.step.1.result.toOption.any test = true) :
    ∃ record, s.step.1.result = .ok record ∧ test record = true := exists_of_test h

/-- Half the square of one variable, from the point `4`. -/
def bowlProgram : Program Float where
  objective := fun x => (x.scale 0.5).hadamard x
  gradient := .ok
  constraints := []
  initialGuess := Matrix.column #[4.0]

/-- A run of it after its first record. -/
def bowlSolver : Solver Float :=
  (start bowlProgram .default ⟨1, []⟩ bowlProgram.initialGuess).step.2

/-- The run reaches the minimum with one step, and its success says so. -/
theorem success_bounds_bowl : ∃ record, bowlSolver.step.1.result = .ok record ∧
    record.progress = .success ∧
    ∃ e r, bowlSolver.step.2.Assessed e r ∧
      record = bowlSolver.step.2.report r.primal r.dual .success ∧
      record.primal ≤ 1e-8 ∧ r.complementarityError 0 ≤ 1e-8 ∧
      (record.dual ≤ 1e-8 ↔ ∀ v ∈ r.stationarity.data, Scalar.isNaN v = false) := by
  obtain ⟨record, hresult, hsuccess⟩ : ∃ record, bowlSolver.step.1.result = .ok record ∧
      decide (record.progress = .success) = true := exists_record (by decide +kernel)
  have hreach : Reachable bowlProgram Options.default bowlSolver :=
    .step (.create (x := bowlProgram.initialGuess) rfl)
  exact ⟨record, hresult, of_decide_eq_true hsuccess,
    success_bounds hreach hresult (of_decide_eq_true hsuccess)⟩

/-- **A program whose gradient of the Lagrangian overflows in both of its sums**, and whose
constraints hold at the start. -/
def overflowProgram : Program Float where
  objective := fun _ => .ok (Matrix.zeros 1 1)
  gradient := fun _ => .ok (Matrix.column #[-1.7e308])
  constraints :=
    [⟨.equality, fun _ => .ok (Matrix.zeros 1 1), fun _ => .ok (Matrix.column #[1.7e308])⟩,
      ⟨.inequality, fun _ => .ok (Matrix.ones 2),
        fun _ => .ok (Matrix.column #[-1.7e308, -1.7e308])⟩]
  initialGuess := Matrix.zeros 1 1

/-- A tolerance above the error of complementarity at the start. -/
def overflowOptions : Options Float := { Options.default with globalTolerance := 2.0 }

/-- A run of it at its beginning. -/
def overflowSolver : Solver Float :=
  start overflowProgram overflowOptions ⟨1, [(.equality, 1), (.inequality, 2)]⟩
    overflowProgram.initialGuess

/-- **A success whose dual infeasibility is a NaN**, and so not within the tolerance: in the
gradient of the Lagrangian one infinity is taken from another. -/
theorem success_with_nan : Reachable overflowProgram overflowOptions overflowSolver ∧
    ∃ record, overflowSolver.step.1.result = .ok record ∧ record.progress = .success ∧
      Scalar.isNaN record.dual = true ∧ ¬record.dual ≤ overflowOptions.globalTolerance := by
  refine ⟨.create (x := overflowProgram.initialGuess) rfl, ?_⟩
  obtain ⟨record, hresult, htest⟩ : ∃ record, overflowSolver.step.1.result = .ok record ∧
      (decide (record.progress = .success) && Scalar.isNaN record.dual) = true :=
    exists_record (by decide +kernel)
  obtain ⟨hsuccess, hnan⟩ := Bool.and_eq_true_iff.mp htest
  refine ⟨record, hresult, of_decide_eq_true hsuccess, hnan, ?_⟩
  intro hle
  rw [(Double.isNaN_of_le hle).1] at hnan
  cases hnan

end Solver

end InteriorPoint
