import Mathlib
import InteriorPoint.Proofs.Solver.Calls
import InteriorPoint.Proofs.Solver.Success

/-!
# Proofs/Solver/Memory — what a solver remembers of its program cannot be seen

A solver carries evaluations from one call to the next: the one that a Newton step has computed at
the new iterate, and the one that a pending record was based on.  `Bare` is the same machine without
them; it asks the program again at every call and even within one, after a Newton step.  Forgetting
is a simulation (`Settled.forget_step`, `Drives.forget`, `Settled.forget_call`), so no sequence of
calls tells the two apart.

The line search asks the program for the constraints a second time, and finds the violation that the
record has reported (`Assessed.violation_eq`).
-/

namespace InteriorPoint

variable {α σ : Type}

/-- Where a solver without memory stands. -/
inductive Stage (α : Type) where
  /-- The iterate has not been examined. -/
  | ready
  /-- A pending record was given; a step is due. -/
  | due
  /-- A terminal record was given. -/
  | finished (record : Record α) (terminal : record.progress ≠ .pending)

/-- **A solver that keeps no evaluation.** -/
structure Bare (α : Type) where
  program : Program α
  options : Options α
  size : Size
  system : NewtonSystem
  iterate : Iterate α
  stage : Stage α
  iterations : Nat
  last : Option (Record α)
  ended : Bool

/-- What is left of a phase without the evaluation that it carries. -/
def Phase.stage : Phase α → Stage α
  | .ready => .ready
  | .stepping .. => .due
  | .finished record terminal => .finished record terminal

/-- **Forgets all evaluations.** -/
def Solver.forget (s : Solver α) : Bare α :=
  ⟨s.program, s.options, s.size, s.system, s.iterate, s.phase.stage, s.iterations, s.last, s.ended⟩

/-- The end of a driven run. -/
structure Bare.Driven (σ α : Type) where
  events : List (Event α)
  verdict : Except (Error α) Verdict
  hooks : σ
  solver : Bare α

/-- Forgets all evaluations. -/
def Driven.forget (d : Driven σ α) : Bare.Driven σ α :=
  ⟨d.events, d.verdict, d.hooks, d.solver.forget⟩

/-! ## The machine without memory -/

namespace Bare

/-- A solver that knows nothing about its iterate. -/
def load (b : Bare α) : Solver α :=
  ⟨b.program, b.options, b.size, b.system, b.iterate, .ready, b.iterations, none, b.last, b.ended⟩

/-- How many calls can still give a pending record. -/
def remaining (b : Bare α) : Nat :=
  2 * (b.options.maxIterations - b.iterations) +
    match b.stage with
    | .ready => 1
    | _ => 0

theorem remaining_forget (s : Solver α) : s.forget.remaining = s.remaining := by
  obtain ⟨_, _, _, _, _, phase, _, _, _, _⟩ := s
  cases phase <;> rfl

variable [Scalar α]

/-- Stores a step. -/
def commit (b : Bare α) (it : Iterate α) : Bare α :=
  { b with iterate := it, iterations := b.iterations + 1, stage := .ready }

/-- Evaluates the program at the iterate and examines it. -/
def examine (b : Bare α) : Traced α (Record α) × Bare α :=
  (b.load.examine.1, b.load.examine.2.forget)

/-- **One call of the machine.**  Before a Newton step the program is evaluated at the iterate, and
after it at the new one. -/
def step (b : Bare α) : Traced α (Record α) × Bare α :=
  match b.stage with
  | .finished record _ => (pure record, b)
  | .ready => b.examine
  | .due =>
    match b.load.assess with
    | .error err => (⟨[], .error err⟩, b)
    | .ok (e, r) =>
      match b.load.advance e r with
      | ⟨events, .error err⟩ => (⟨events, .error err⟩, b)
      | ⟨events, .ok (it, _)⟩ =>
        (⟨events ++ (b.commit it).examine.1.events, (b.commit it).examine.1.result⟩,
          (b.commit it).examine.2)

theorem examine_pending {b : Bare α} {record : Record α} (h : b.examine.1.result = .ok record)
    (hp : record.progress = .pending) :
    b.iterations < b.options.maxIterations ∧
      b.examine.2.remaining = 2 * (b.options.maxIterations - b.iterations) := by
  obtain ⟨hlt, heq⟩ := Solver.examine_pending h hp
  exact ⟨hlt, (remaining_forget _).trans heq⟩

/-- A pending record brings the end nearer. -/
theorem remaining_step_lt {b : Bare α} {record : Record α} (h : b.step.1.result = .ok record)
    (hp : record.progress = .pending) : b.step.2.remaining < b.remaining := by
  unfold step at h ⊢
  split
  · rename_i terminal hstage
    simp only [hstage] at h
    cases h
    exact absurd hp terminal
  · rename_i hstage
    simp only [hstage] at h
    rw [(examine_pending h hp).2, remaining, hstage]
    exact Nat.lt_succ_self _
  · rename_i hstage
    simp only [hstage] at h
    split
    · rename_i hassess
      simp only [hassess] at h
      cases h
    · rename_i hassess
      simp only [hassess] at h
      split
      · rename_i hadvance
        simp only [hadvance] at h
        cases h
      · rename_i hadvance
        simp only [hadvance] at h
        obtain ⟨hlt, heq⟩ := examine_pending h hp
        have hlt : b.iterations + 1 < b.options.maxIterations := hlt
        rw [heq, remaining, hstage]
        change 2 * (b.options.maxIterations - (b.iterations + 1)) <
          2 * (b.options.maxIterations - b.iterations)
        omega

/-- The next item of the stream of records. -/
def next (b : Bare α) : Option (Traced α (Record α)) × Bare α :=
  if b.ended then (none, b)
  else (some b.step.1, { b.step.2 with ended := Solver.endsStream b.step.1.result })

/-- Steps until a terminal record, an error, or the judge's word. -/
def drive (h : Hooks σ α) (st : σ) (b : Bare α) : Bare.Driven σ α :=
  match _hr : b.step.1.result with
  | .error err => ⟨b.step.1.events, .error err, st, b.step.2⟩
  | .ok record =>
    let seen := h.observe record st
    let events := b.step.1.events ++ seen.1
    match _hp : record.progress with
    | .success => ⟨events, .ok .optimal, seen.2, b.step.2⟩
    | .failed => ⟨events, .ok .iterationLimit, seen.2, b.step.2⟩
    | .pending =>
      let judged := h.judge record seen.2
      match judged.1 with
      | some verdict =>
        ⟨events ++ [.stopped b.step.2.iterations verdict], .ok verdict, judged.2, b.step.2⟩
      | none =>
        let rest := drive h judged.2 b.step.2
        { rest with events := events ++ rest.events }
termination_by b.remaining
decreasing_by exact remaining_step_lt _hr _hp

/-- One round of a driven run. -/
theorem drive_eq (h : Hooks σ α) (st : σ) (b : Bare α) :
    b.drive h st =
      match b.step.1.result with
      | .error err => ⟨b.step.1.events, .error err, st, b.step.2⟩
      | .ok record =>
        let seen := h.observe record st
        let events := b.step.1.events ++ seen.1
        match record.progress with
        | .success => ⟨events, .ok .optimal, seen.2, b.step.2⟩
        | .failed => ⟨events, .ok .iterationLimit, seen.2, b.step.2⟩
        | .pending =>
          let judged := h.judge record seen.2
          match judged.1 with
          | some verdict =>
            ⟨events ++ [.stopped b.step.2.iterations verdict], .ok verdict, judged.2, b.step.2⟩
          | none =>
            let rest := b.step.2.drive h judged.2
            { rest with events := events ++ rest.events } := by
  rw [drive]
  split
  · rename_i hresult
    simp only [hresult]
  · rename_i hresult
    simp only [hresult]
    split <;> simp only [*]

/-- Drives a run to its end. -/
def solve (h : Hooks σ α) (st : σ) (b : Bare α) : Bare.Driven σ α :=
  b.drive h (h.begin st)

/-- The run begun again from another point. -/
def restart (b : Bare α) (x : Matrix α) : Except (Error α) (Bare α) :=
  (b.load.restart x).map Solver.forget

/-- **Makes a call.** -/
def call (b : Bare α) : Call α → Answer α × Bare α
  | .step => (.step b.step.1, b.step.2)
  | .next => (.next b.next.1, b.next.2)
  | .solve hooks st =>
    (.solve (b.solve hooks st).events (b.solve hooks st).verdict (b.solve hooks st).hooks,
      (b.solve hooks st).solver)
  | .restart x =>
    match b.restart x with
    | .ok c => (.restart (.ok ()), c)
    | .error err => (.restart (.error err), b)

/-- **Makes one call after the other.** -/
def calls : List (Call α) → Bare α → List (Answer α) × Bare α
  | [], b => ([], b)
  | c :: cs, b => ((b.call c).1 :: (calls cs (b.call c).2).1, (calls cs (b.call c).2).2)

end Bare

/-! ## Forgetting is a simulation -/

namespace Solver

variable [Scalar α] {s t : Solver α}

/-- What is remembered is what the program gives when it is asked again. -/
theorem Consistent.assess_forget (hs : Consistent s) : s.forget.load.assess = s.assess := by
  rcases hknown : s.known with _ | e
  · simp only [assess, hknown]
    rfl
  · have hcompute : Evaluation.compute s.program s.size s.iterate.x = .ok e := hs.known e hknown
    simp only [assess, hknown]
    change (Evaluation.compute s.program s.size s.iterate.x >>= _) = _
    rw [hcompute]
    rfl

/-- A look at the iterate cannot tell. -/
theorem Consistent.forget_examine (hs : Consistent s) :
    s.forget.examine = (s.examine.1, s.examine.2.forget) := by
  unfold Bare.examine examine
  rw [hs.assess_forget]
  by_cases hmax : s.options.maxIterations ≤ s.iterations
  · have hmax' : s.forget.load.options.maxIterations ≤ s.forget.load.iterations := hmax
    rw [if_pos hmax, if_pos hmax']
    rfl
  · have hmax' : ¬s.forget.load.options.maxIterations ≤ s.forget.load.iterations := hmax
    rw [if_neg hmax, if_neg hmax']
    rcases s.assess with err | ⟨e, r⟩
    · rfl
    · have htolerance : s.forget.load.options.globalTolerance = s.options.globalTolerance := rfl
      simp only [htolerance]
      split <;> rfl

/-- **A step cannot tell whether the solver remembers anything.** -/
theorem Settled.forget_step (hs : Settled s) :
    s.forget.step = (s.step.1, s.step.2.forget) := by
  rcases hphase : s.phase with _ | ⟨e, r⟩ | ⟨record, terminal⟩
  · have hstage : s.forget.stage = .ready := congrArg Phase.stage hphase
    rw [Bare.step, hstage, step, hphase]
    exact hs.toConsistent.forget_examine
  · have hstage : s.forget.stage = .due := congrArg Phase.stage hphase
    obtain ⟨he, hr⟩ := hs.stepping e r hphase
    have hassess : s.forget.load.assess = .ok (e, r) := by
      change (Evaluation.compute s.program s.size s.iterate.x >>= _) = _
      rw [he]
      change (Residual.compute e s.iterate.s s.iterate.y s.iterate.z >>= _) = _
      rw [hr]
      rfl
    have hadvance : s.forget.load.advance e r = s.advance e r := rfl
    rw [Bare.step, hstage, step, hphase]
    simp only [hassess, hadvance]
    rcases hresult : s.advance e r with ⟨events, err | ⟨it, next⟩⟩
    · rfl
    · have hcommit : s.forget.commit it = (s.commit it next).forget := rfl
      have hadvanced : (s.advance e r).result = .ok (it, next) := by rw [hresult]
      simp only [hcommit, (hs.toConsistent.commit hadvanced).forget_examine]
  · have hstage : s.forget.stage = .finished record terminal := congrArg Phase.stage hphase
    rw [Bare.step, hstage, step, hphase]

/-- **…nor can a driven run**, which asks for one step after the other. -/
theorem Drives.forget {hooks : Hooks σ α} {st : σ} {log : Log α} {d : Driven σ α}
    (h : Drives hooks st s log d) (hs : Settled s) : s.forget.drive hooks st = d.forget := by
  induction h with
  | broken hresult =>
    simp only [Bare.drive_eq, hs.forget_step, hresult]
    rfl
  | optimal hresult hprogress =>
    simp only [Bare.drive_eq, hs.forget_step, hresult, hprogress]
    rfl
  | exhausted hresult hprogress =>
    simp only [Bare.drive_eq, hs.forget_step, hresult, hprogress]
    rfl
  | stopped hresult hprogress hjudge =>
    simp only [Bare.drive_eq, hs.forget_step, hresult, hprogress, hjudge]
    rfl
  | @continued _ s _ _ _ hresult hprogress hjudge _ ih =>
    have hrest := ih (s.steps.settled hs)
    rw [Bare.drive_eq]
    simp only [hs.forget_step, hresult, hprogress, hjudge, hrest]
    rfl

theorem forget_restart (s : Solver α) (x : Matrix α) :
    s.forget.restart x = (s.restart x).map Solver.forget := rfl

/-- **No call can tell.** -/
theorem Settled.forget_call (hs : Settled s) (c : Call α) :
    s.forget.call c = ((s.call c).1, (s.call c).2.forget) := by
  cases c with
  | step => simp only [Bare.call, call, hs.forget_step]
  | next =>
    have hended : s.forget.ended = s.ended := rfl
    simp only [Bare.call, call, Bare.next, next, hs.forget_step, hended]
    split <;> rfl
  | solve hooks st =>
    have hdrive : s.forget.solve hooks st = (s.solve hooks st).forget :=
      (drives hooks st s).forget hs
    simp only [Bare.call, call, hdrive]
    rfl
  | restart x =>
    simp only [Bare.call, call, forget_restart]
    rcases s.restart x with err | t <;> rfl

/-- **No sequence of calls can tell.** -/
theorem Reachable.forget_calls {p : Program α} {o : Options α} (h : Reachable p o s)
    (cs : List (Call α)) : s.forget.calls cs = ((s.calls cs).1, (s.calls cs).2.forget) := by
  induction cs generalizing s with
  | nil => rfl
  | cons c cs ih =>
    obtain ⟨_, _, _, hs⟩ := h.settled
    rw [Bare.calls, hs.forget_call, ih (h.call c)]
    rfl

/-! ## The infeasibilities of a record -/

/-- A record on a look at the iterate reports what the program leaves of the optimality conditions
there, unless no step is left. -/
theorem Examines.reports {record : Record α} (hs : Consistent s) (h : Examines s (.ok record) t)
    (hfailed : record.progress ≠ .failed) :
    ∃ e r, t.Assessed e r ∧ record = t.report r.primal r.dual record.progress := by
  cases h with
  | exhausted hmax => exact absurd rfl hfailed
  | @converged e r hmax hassess hopt =>
    obtain ⟨he, hr⟩ := hs.assessed hassess
    exact ⟨e, r, ⟨he, hr⟩, rfl⟩
  | @pending e r hmax hassess hopt =>
    obtain ⟨he, hr⟩ := hs.assessed hassess
    exact ⟨e, r, ⟨he, hr⟩, rfl⟩

/-- **So does every record.** -/
theorem Steps.reports {record : Record α} (hs : Settled s) (h : Steps s (.ok record) t)
    (hfailed : record.progress ≠ .failed) :
    ∃ e r, t.Assessed e r ∧ record = t.report r.primal r.dual record.progress := by
  cases h with
  | @finished _ terminal hphase =>
    have hsuccess : record.progress = .success := by
      cases hprogress : record.progress with
      | pending => exact absurd hprogress terminal
      | success => rfl
      | failed => exact absurd hprogress hfailed
    obtain ⟨e, r, hassessed, _, hrecord⟩ := hs.finished record terminal hphase hsuccess
    exact ⟨e, r, hassessed, hsuccess ▸ hrecord⟩
  | examined hphase hexamine => exact hexamine.reports hs.toConsistent hfailed
  | advanced hphase hadvance hexamine =>
    exact hexamine.reports (hs.toConsistent.commit hadvance) hfailed

/-- **The line search measures what the record reports**: it asks the program for the constraints
again, and takes the same norms. -/
theorem Assessed.violation_eq {e : Evaluation α} {r : Residual α} (h : s.Assessed e r) :
    (LineSearch.ofOptions s.program s.size s.options).violation s.iterate.x s.iterate.s =
      .ok r.primal := by
  have hevaluation := h.evaluation
  have hresidual := h.residual
  simp only [Evaluation.compute, bind_eq_ok, pure_eq_ok] at hevaluation
  obtain ⟨_, _, equality, hequality, inequality, hinequality, _, _, _, _, _, _, rfl⟩ := hevaluation
  simp only [Residual.compute, bind_eq_ok, pure_eq_ok] at hresidual
  obtain ⟨_, _, _, _, difference, hdifference, rfl⟩ := hresidual
  simp only [LineSearch.violation, bind_eq_ok, pure_eq_ok]
  exact ⟨equality, hequality, inequality, hinequality, difference, hdifference, rfl⟩

end Solver

/-- The search with `theta` for the violation at its start. -/
def LineSearch.searchFrom [Scalar α] (ls : LineSearch α) (theta : α) (x s : Matrix α)
    (d : Direction α) (alphaMax mu : α) : Traced α (LineSearch.Outcome α) := do
  let phi ← ls.merit x s mu
  ls.backtrack x s d alphaMax mu ⟨theta, phi⟩ ls.maxBacktracks 0 alphaMax

theorem LineSearch.search_eq [Scalar α] {ls : LineSearch α} {theta : α} {x s : Matrix α}
    (h : ls.violation x s = .ok theta) (d : Direction α) (alphaMax mu : α) :
    ls.search x s d alphaMax mu = ls.searchFrom theta x s d alphaMax mu := by
  have hmeasure : ls.measure x s mu = (ls.merit x s mu).map (⟨theta, ·⟩) := by
    rw [measure, h]
    cases ls.merit x s mu <;> rfl
  rw [search, hmeasure, searchFrom]
  cases ls.merit x s mu <;> rfl

namespace Solver

variable [Scalar α] {s : Solver α}

/-- **What a solver remembers cannot be seen.**  In every reachable solver the evaluations that it
keeps are those that the program gives at the iterate, and no sequence of calls tells it from the
machine that keeps none.  The infeasibilities of a pending record or a success are those of the
residual at the iterate, and the next line search starts from the violation that the record
reports. -/
theorem memory_invisible {p : Program α} {o : Options α} (h : Reachable p o s) :
    (∀ e, s.known = some e → Evaluation.compute p s.size s.iterate.x = .ok e) ∧
    (∀ e r, s.phase = .stepping e r → s.Assessed e r) ∧
    (∀ cs : List (Call α), s.forget.calls cs = ((s.calls cs).1, (s.calls cs).2.forget)) ∧
    ∀ record, s.step.1.result = .ok record → record.progress ≠ .failed →
      (∃ e r, s.step.2.Assessed e r ∧
        record = s.step.2.report r.primal r.dual record.progress) ∧
      (LineSearch.ofOptions p s.step.2.size o).violation s.step.2.iterate.x s.step.2.iterate.s =
        .ok record.primal ∧
      ∀ d alphaMax mu,
        (LineSearch.ofOptions p s.step.2.size o).search s.step.2.iterate.x s.step.2.iterate.s d
          alphaMax mu =
        (LineSearch.ofOptions p s.step.2.size o).searchFrom record.primal s.step.2.iterate.x
          s.step.2.iterate.s d alphaMax mu := by
  obtain ⟨_, hp, _, hs⟩ := h.settled
  obtain ⟨_, hp', ho', _⟩ := h.step.settled
  refine ⟨fun e he => hp ▸ hs.known e he, hs.stepping, h.forget_calls, ?_⟩
  intro record hresult hfailed
  have hsteps : Steps s (.ok record) s.step.2 := hresult ▸ s.steps
  obtain ⟨e, r, hassessed, hrecord⟩ := hsteps.reports hs hfailed
  have hprimal : record.primal = r.primal := congrArg Record.primal hrecord
  have hviolation : (LineSearch.ofOptions p s.step.2.size o).violation s.step.2.iterate.x
      s.step.2.iterate.s = .ok record.primal := by
    rw [hprimal, ← hassessed.violation_eq, hp', ho']
  exact ⟨⟨e, r, hassessed, hrecord⟩, hviolation, LineSearch.search_eq hviolation⟩

/-! ## A run that ends with an evaluation unused -/

/-- Half the square of a variable that is at least one, from the point `4`. -/
def boundedProgram : Program Float where
  objective := fun x => (x.scale 0.5).hadamard x
  gradient := .ok
  constraints := [⟨.inequality, fun x => x.subtract (Matrix.ones 1), fun _ => .ok (Matrix.ones 1)⟩]
  initialGuess := Matrix.column #[4.0]

/-- A single step is allowed. -/
def singleStep : Options Float := { Options.default with maxIterations := 1 }

/-- A run at its beginning. -/
def boundedSolver : Solver Float :=
  start boundedProgram singleStep ⟨1, [(.inequality, 1)]⟩ boundedProgram.initialGuess

/-- Its first record leaves a step due; its second one is a failure, and the evaluation at the last
iterate is never used. -/
theorem memory_invisible_bounded :
    (∃ record, boundedSolver.step.1.result = .ok record ∧ record.progress = .pending ∧
      (LineSearch.ofOptions boundedProgram boundedSolver.step.2.size singleStep).violation
        boundedSolver.step.2.iterate.x boundedSolver.step.2.iterate.s = .ok record.primal) ∧
    (∃ e r, boundedSolver.step.2.phase = .stepping e r ∧ boundedSolver.step.2.Assessed e r) ∧
    (∃ e, boundedSolver.step.2.step.2.known = some e ∧
      Evaluation.compute boundedProgram boundedSolver.step.2.step.2.size
        boundedSolver.step.2.step.2.iterate.x = .ok e) ∧
    boundedSolver.forget.calls [.next, .step, .next] =
      ((boundedSolver.calls [.next, .step, .next]).1,
        (boundedSolver.calls [.next, .step, .next]).2.forget) := by
  have hreach : Reachable boundedProgram singleStep boundedSolver :=
    .create (x := boundedProgram.initialGuess) rfl
  have hpending : boundedSolver.step.1.result.toOption.any
      (fun record => decide (record.progress = .pending)) = true := by decide +kernel
  have hdue : (match boundedSolver.step.2.phase with
      | .stepping .. => true
      | _ => false) = true := by decide +kernel
  have hknown : boundedSolver.step.2.step.2.known.isSome = true := by decide +kernel
  obtain ⟨_, _, hcalls, hrecords⟩ := memory_invisible hreach
  refine ⟨?_, ?_, ?_, hcalls _⟩
  · obtain ⟨record, hresult, htest⟩ := exists_record hpending
    have hprogress : record.progress = .pending := of_decide_eq_true htest
    refine ⟨record, hresult, hprogress, (hrecords record hresult ?_).2.1⟩
    rw [hprogress]
    decide
  · split at hdue
    · rename_i e r hphase
      exact ⟨e, r, hphase, (memory_invisible hreach.step).2.1 e r hphase⟩
    · cases hdue
  · obtain ⟨e, he⟩ := Option.isSome_iff_exists.mp hknown
    exact ⟨e, he, (memory_invisible hreach.step.step).1 e he⟩

end Solver

end InteriorPoint
