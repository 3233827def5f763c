import Mathlib
import InteriorPoint.Proofs.Solver.Calls
import InteriorPoint.Proofs.Solver.Invariant

/-!
# Proofs/Solver/Restart — a run begun again is a new run

A Newton step leaves a factorization in the linear solver, which the next step finds there. An
`Equipped` solver carries it: its steps solve with a linear solver in whatever state the steps
before have left it, of other dimensions perhaps, or halfway through a singular matrix. As each
step factorizes before it solves, nothing of that state is ever read (`solve_factorize`), and
leaving the linear solver out is a simulation (`Equipped.solver_step`, `Drives.equipped`,
`Equipped.solver_calls`).

* `restart_forgets` — a restart does what creating a solver does, or fails as that does and changes
  nothing; no later call can tell a solver that was restarted from one that was created.
-/

namespace InteriorPoint

variable {α σ : Type} [Scalar α]

/-! ## Newton directions from a linear solver in use -/

/-- **What a linear solver kept before makes no difference** to what it solves next. -/
theorem Factorization.solve_factorize (f : Factorization α) (a b : Matrix α) :
    ((f.factorize a).2 >>= fun () => (f.factorize a).1.solve b) = solveLinearSystem a b := by
  by_cases h : a.cols = a.rows
  · have hfactorize : f.factorize a = Factorization.empty.factorize a := by
      rw [factorize, factorize, dif_pos h, dif_pos h]
    rw [hfactorize]
    rfl
  · have hfactorize : ∀ f : Factorization α,
        f.factorize a = (f, .error (.mismatch .factorize a.shape (a.rows, a.rows))) :=
      fun f => dif_neg h
    rw [solveLinearSystem, hfactorize, hfactorize]
    rfl

/-- The Newton direction as a linear solver finds it that keeps `held`, and what it keeps
afterwards. -/
def NewtonSystem.directionFrom (sys : NewtonSystem) (held : Factorization α) (it : Iterate α)
    (e : Evaluation α) (r : Residual α) (mu : α) :
    Except (Error α) (Direction α) × Factorization α :=
  match sys.matrix it e, r.rhs mu with
  | .error err, _ => (.error err, held)
  | .ok _, .error err => (.error err, held)
  | .ok matrix, .ok rhs =>
    let (f, result) := held.factorize matrix
    (do
      let solution ← result >>= fun () => f.solve rhs
      solution.requireFinite .newtonStep
      sys.split solution, f)

/-- **The direction does not depend on what the linear solver keeps.** -/
theorem NewtonSystem.directionFrom_fst (sys : NewtonSystem) (held : Factorization α)
    (it : Iterate α) (e : Evaluation α) (r : Residual α) (mu : α) :
    (sys.directionFrom held it e r mu).1 = sys.direction it e r mu := by
  rw [directionFrom, direction]
  rcases sys.matrix it e with err | a
  · rfl
  · rcases r.rhs mu with err | b
    · rfl
    · simp only [Factorization.solve_factorize]
      rfl

/-- What a Newton step does with its direction. -/
def Solver.along (s : Solver α) (e : Evaluation α) (mu : α) (d : Direction α) :
    Traced α (Iterate α × Evaluation α) := do
  let it := s.iterate
  let tau := s.options.fractionToBoundary
  let alphaMax ← toBoundary it.s d.ds tau
  let alphaDual ← toBoundary it.z d.dz tau
  let found ← (LineSearch.ofOptions s.program s.size s.options).search it.x it.s d alphaMax mu
  let alpha := found.length
  let x ← it.x.add (d.dx.scale alpha)
  let slacks ← it.s.add (d.ds.scale alpha)
  let y ← it.y.add (d.dy.scale alphaDual)
  let z ← it.z.add (d.dz.scale alphaDual)
  Solver.requireInterior slacks z
  let next ← Evaluation.compute s.program s.size x
  let curvature ← Solver.nextCurvature it e next x y z
  Traced.note (.stepped alpha alphaMax alphaDual mu)
  return ({ x, s := slacks, y, z, curvature, mu }, next)

theorem Solver.advance_eq_along (s : Solver α) (e : Evaluation α) (r : Residual α) :
    s.advance e r = (do
      let mu := (Barrier.ofOptions s.options).update r s.iterate.mu
      s.along e mu (← s.system.direction s.iterate e r mu)) := rfl

/-! ## A solver with its linear solver -/

/-- **A solver with what its linear solver keeps.** -/
structure Equipped (α : Type) where
  solver : Solver α
  held : Factorization α

/-- The end of a driven run. -/
structure Equipped.Driven (σ α : Type) where
  events : List (Event α)
  verdict : Except (Error α) Verdict
  hooks : σ
  machine : Equipped α

namespace Equipped

/-- A run from a given point, with a linear solver that has not been used. -/
def create (p : Program α) (x : Matrix α) (o : Options α) : Except (Error α) (Equipped α) :=
  return ⟨← Solver.create p x o, .empty⟩

/-- The run begun again from another point, with a linear solver that has not been used. -/
def restart (m : Equipped α) (x : Matrix α) : Except (Error α) (Equipped α) :=
  return ⟨← m.solver.restart x, .empty⟩

/-- The next iterate, and what the linear solver keeps. -/
def advance (m : Equipped α) (e : Evaluation α) (r : Residual α) :
    Traced α (Iterate α × Evaluation α) × Factorization α :=
  let mu := (Barrier.ofOptions m.solver.options).update r m.solver.iterate.mu
  let (d, held) := m.solver.system.directionFrom m.held m.solver.iterate e r mu
  (do m.solver.along e mu (← d), held)

/-- **One call of the machine.**  What a Newton step leaves in the linear solver stays there, also
if the step fails. -/
def step (m : Equipped α) : Traced α (Record α) × Equipped α :=
  match m.solver.phase with
  | .finished record _ => (pure record, m)
  | .ready => (m.solver.examine.1, ⟨m.solver.examine.2, m.held⟩)
  | .stepping e r =>
    match m.advance e r with
    | (⟨events, .error err⟩, held) => (⟨events, .error err⟩, ⟨m.solver, held⟩)
    | (⟨events, .ok (it, next)⟩, held) =>
      let (t, s) := (m.solver.commit it next).examine
      (⟨events ++ t.events, t.result⟩, ⟨s, held⟩)

theorem advance_fst (m : Equipped α) (e : Evaluation α) (r : Residual α) :
    (m.advance e r).1 = m.solver.advance e r := by
  rw [advance, Solver.advance_eq_along]
  simp only [NewtonSystem.directionFrom_fst]

/-- **A step cannot tell what its linear solver keeps.** -/
theorem solver_step (m : Equipped α) :
    m.step.1 = m.solver.step.1 ∧ m.step.2.solver = m.solver.step.2 := by
  rcases hphase : m.solver.phase with _ | ⟨e, r⟩ | ⟨record, terminal⟩
  · simp only [step, Solver.step, hphase, and_self]
  · have hadvance := m.advance_fst e r
    simp only [step, Solver.step, hphase]
    rcases hm : m.advance e r with ⟨⟨events, err | ⟨it, next⟩⟩, held⟩
    · rw [hm] at hadvance
      simp only [← hadvance, and_self]
    · rw [hm] at hadvance
      simp only [← hadvance, and_self]
  · simp only [step, Solver.step, hphase, and_self]

/-- A pending record brings the end nearer. -/
theorem remaining_step_lt {m : Equipped α} {record : Record α} (h : m.step.1.result = .ok record)
    (hp : record.progress = .pending) : m.step.2.solver.remaining < m.solver.remaining := by
  rw [m.solver_step.1] at h
  rw [m.solver_step.2]
  exact Solver.remaining_step_lt h hp

/-- The next item of the stream of records. -/
def next (m : Equipped α) : Option (Traced α (Record α)) × Equipped α :=
  if m.solver.ended then (none, m)
  else (some m.step.1,
    { m.step.2 with solver := m.step.2.solver.mark (Solver.endsStream m.step.1.result) })

/-- Steps until a terminal record, an error, or the judge's word. -/
def drive (h : Hooks σ α) (st : σ) (m : Equipped α) : Equipped.Driven σ α :=
  match _hr : m.step.1.result with
  | .error err => ⟨m.step.1.events, .error err, st, m.step.2⟩
  | .ok record =>
    let seen := h.observe record st
    let events := m.step.1.events ++ seen.1
    match _hp : record.progress with
    | .success => ⟨events, .ok .optimal, seen.2, m.step.2⟩
    | .failed => ⟨events, .ok .iterationLimit, seen.2, m.step.2⟩
    | .pending =>
      let judged := h.judge record seen.2
      match judged.1 with
      | some verdict =>
        ⟨events ++ [.stopped m.step.2.solver.iterations verdict], .ok verdict, judged.2, m.step.2⟩
      | none =>
        let rest := drive h judged.2 m.step.2
        { rest with events := events ++ rest.events }
termination_by m.solver.remaining
decreasing_by exact remaining_step_lt _hr _hp

/-- Drives a run to its end. -/
def solve (h : Hooks σ α) (st : σ) (m : Equipped α) : Equipped.Driven σ α :=
  m.drive h (h.begin st)

/-- **Makes a call.** -/
def call (m : Equipped α) : Call α → Answer α × Equipped α
  | .step => (.step m.step.1, m.step.2)
  | .next => (.next m.next.1, m.next.2)
  | .solve hooks st =>
    (.solve (m.solve hooks st).events (m.solve hooks st).verdict (m.solve hooks st).hooks,
      (m.solve hooks st).machine)
  | .restart x =>
    match m.restart x with
    | .ok t => (.restart (.ok ()), t)
    | .error err => (.restart (.error err), m)

/-- **Makes one call after the other.** -/
def calls : List (Call α) → Equipped α → List (Answer α) × Equipped α
  | [], m => ([], m)
  | c :: cs, m => ((m.call c).1 :: (calls cs (m.call c).2).1, (calls cs (m.call c).2).2)

end Equipped

/-! ## Leaving the linear solver out is a simulation -/

/-- The end of a driven run without the linear solver. -/
def Equipped.Driven.plain (d : Equipped.Driven σ α) : InteriorPoint.Driven σ α :=
  ⟨d.events, d.verdict, d.hooks, d.machine.solver⟩

namespace Equipped

/-- **A driven run cannot tell what the linear solver keeps.** -/
theorem plain_drive (hooks : Hooks σ α) (st : σ) (m : Equipped α) :
    (m.drive hooks st).plain = m.solver.drive hooks st := by
  fun_induction drive hooks st m with
  | case1 st m err hresult =>
    simp only [Solver.drive_eq, ← m.solver_step.1, ← m.solver_step.2, hresult]
    rfl
  | case2 st m record hresult seen events hprogress =>
    simp only [Solver.drive_eq, ← m.solver_step.1, ← m.solver_step.2, hresult, hprogress]
    rfl
  | case3 st m record hresult seen events hprogress =>
    simp only [Solver.drive_eq, ← m.solver_step.1, ← m.solver_step.2, hresult, hprogress]
    rfl
  | case4 st m record hresult seen events hprogress judged verdict hjudge =>
    have hjudge : (hooks.judge record (hooks.observe record st).2).1 = some verdict := hjudge
    rw [Solver.drive_eq]
    simp only [← m.solver_step.1, ← m.solver_step.2, hresult, hprogress, hjudge]
    rfl
  | case5 st m record hresult seen events hprogress judged hjudge rest ih =>
    have hjudge : (hooks.judge record (hooks.observe record st).2).1 = none := hjudge
    have hrest : m.step.2.solver.drive hooks (hooks.judge record (hooks.observe record st).2).2 =
        rest.plain := ih.symm
    rw [Solver.drive_eq]
    simp only [← m.solver_step.1, ← m.solver_step.2, hresult, hprogress, hjudge, hrest]
    rfl

/-- **No call can tell.** -/
theorem solver_call (m : Equipped α) (c : Call α) :
    (m.call c).1 = (m.solver.call c).1 ∧ (m.call c).2.solver = (m.solver.call c).2 := by
  obtain ⟨hrecord, hsolver⟩ := m.solver_step
  cases c with
  | step => exact ⟨congrArg Answer.step hrecord, hsolver⟩
  | next =>
    simp only [call, Solver.call, next, Solver.next, ← hrecord, ← hsolver]
    split <;> exact ⟨rfl, rfl⟩
  | solve hooks st =>
    simp only [call, Solver.call, solve, Solver.solve, ← plain_drive]
    exact ⟨rfl, rfl⟩
  | restart x =>
    simp only [call, Solver.call, restart]
    rcases m.solver.restart x with err | t <;> exact ⟨rfl, rfl⟩

/-- **No sequence of calls can tell.** -/
theorem solver_calls (m : Equipped α) (cs : List (Call α)) :
    (m.calls cs).1 = (m.solver.calls cs).1 ∧ (m.calls cs).2.solver = (m.solver.calls cs).2 := by
  induction cs generalizing m with
  | nil => exact ⟨rfl, rfl⟩
  | cons c cs ih =>
    obtain ⟨hanswer, hsolver⟩ := m.solver_call c
    obtain ⟨hanswers, hlast⟩ := ih (m.call c).2
    rw [hsolver] at hanswers hlast
    exact ⟨congrArg₂ List.cons hanswer hanswers, hlast⟩

end Equipped

/-! ## Restarts -/

namespace Solver

variable {p : Program α} {o : Options α} {s : Solver α}

/-- **A restart of a reachable solver is a creation**: all it reads is the program and the options,
and those are the ones that the solver was created with. -/
theorem Reachable.restart_eq (h : Reachable p o s) (x : Matrix α) :
    s.restart x = Solver.create p x o := by
  obtain ⟨hvalid, hp, ho, _⟩ := h.settled
  rw [Solver.restart, Solver.create, hp, ho, hvalid]
  rfl

/-- **A restart forgets everything or nothing.**  Whatever calls have been made, and whatever they
have left in the linear solver: a restart fails exactly if creating a solver from that point does,
with the same error, and then changes nothing, not even in the linear solver.  Otherwise it leaves
the solver that is created, and from there on the answers to any sequence of calls, and the solver
that they lead to, are those of the created one, even if the linear solver were not new. -/
theorem restart_forgets (h : Reachable p o s) (held : Factorization α) (x : Matrix α) :
    s.restart x = create p x o ∧
    (Equipped.mk s held).restart x = Equipped.create p x o ∧
    (∀ err, create p x o = .error err →
      (Equipped.mk s held).call (.restart x) = (.restart (.error err), ⟨s, held⟩)) ∧
    ∀ t, create p x o = .ok t →
      (Equipped.mk s held).call (.restart x) = (.restart (.ok ()), ⟨t, .empty⟩) ∧
      ∀ (left : Factorization α) (cs : List (Call α)),
        ((Equipped.mk t left).calls cs).1 = (t.calls cs).1 ∧
        ((Equipped.mk t left).calls cs).2.solver = (t.calls cs).2 := by
  have hrestart := h.restart_eq x
  refine ⟨hrestart, ?_, ?_, ?_⟩
  · rw [Equipped.restart, hrestart, Equipped.create]
  · intro err herr
    simp only [Equipped.call, Equipped.restart, hrestart, herr]
    rfl
  · intro t ht
    refine ⟨?_, fun left cs => Equipped.solver_calls ⟨t, left⟩ cs⟩
    simp only [Equipped.call, Equipped.restart, hrestart, ht]
    rfl

/-! ## A run in two dimensions that is begun again in three -/

/-- A run with two variables after a Newton step. -/
def usedSolver : Equipped Float := (Equipped.mk orthantSolver .empty).step.2

theorem reachable_usedSolver : Reachable orthantProgram Options.default usedSolver.solver := by
  rw [usedSolver, (Equipped.mk orthantSolver .empty).solver_step.2]
  exact reachable_orthantSolver.step

/-- The Newton step leaves a factorization with six unknowns; a restart from a row is refused and
leaves it there, and after a restart with three variables the run is a new one. -/
theorem restart_forgets_orthant :
    usedSolver.held.n = 6 ∧
    usedSolver.call (.restart (Matrix.row #[1.0, 2.0])) =
      (.restart (.error (.invalidShape 1 2)), usedSolver) ∧
    ∃ t, create orthantProgram (Matrix.column #[1.0, 2.0, 3.0]) Options.default = .ok t ∧
      usedSolver.call (.restart (Matrix.column #[1.0, 2.0, 3.0])) =
        (.restart (.ok ()), ⟨t, .empty⟩) ∧
      ∀ cs, ((Equipped.mk t usedSolver.held).calls cs).1 = (t.calls cs).1 := by
  have hforgets := restart_forgets reachable_usedSolver usedSolver.held
  obtain ⟨_, _, hrefused, _⟩ := hforgets (Matrix.row #[1.0, 2.0])
  obtain ⟨_, _, _, hrenewed⟩ := hforgets (Matrix.column #[1.0, 2.0, 3.0])
  obtain ⟨hcall, hcalls⟩ := hrenewed (start orthantProgram .default ⟨3, [(.inequality, 3)]⟩ _) rfl
  exact ⟨by decide +kernel, hrefused _ rfl, _, rfl, hcall, fun cs => (hcalls usedSolver.held cs).1⟩

end Solver

end InteriorPoint
