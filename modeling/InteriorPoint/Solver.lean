import InteriorPoint.Barrier
import InteriorPoint.Curvature
import InteriorPoint.LineSearch
import InteriorPoint.Newton

/-!
# Solver — the method as a machine that is stepped

A `Solver` examines its iterate, reports, and takes a Newton step when it is called again.
Everything a step needs is computed before anything is stored, so a step that fails leaves the
solver as it was and can be tried again; `step_error` says so for the Newton step. After a
terminal record every further call returns that record.

A pending record brings the end nearer: `remaining_step_lt`.  That is why loops over a solver end.
-/

namespace InteriorPoint

variable {α : Type}

/-- **Where a solver stands.** -/
inductive Phase (α : Type) where
  /-- The iterate has not been examined. -/
  | ready
  /-- A pending record was given; the next call takes a step from here. -/
  | stepping (e : Evaluation α) (r : Residual α)
  /-- A terminal record was given. -/
  | finished (record : Record α) (terminal : record.progress ≠ .pending)

/-- **The state of a run.** -/
structure Solver (α : Type) where
  program : Program α
  options : Options α
  size : Size
  /-- The linear system that a step solves. -/
  system : NewtonSystem
  iterate : Iterate α
  phase : Phase α
  /-- How many steps have been taken. -/
  iterations : Nat
  /-- The functions of the program at the iterate, if taking the last step has computed them. -/
  known : Option (Evaluation α)
  /-- The last record that was given. -/
  last : Option (Record α)
  /-- Whether the stream of records has come to its end. -/
  ended : Bool

namespace Solver

/-- Whether a terminal record was given. -/
def isTerminal (s : Solver α) : Bool :=
  match s.phase with
  | .finished .. => true
  | _ => false

/-- How many calls can still give a pending record: each step counts twice, and a look at the
iterate that is due counts once. -/
def remaining (s : Solver α) : Nat :=
  2 * (s.options.maxIterations - s.iterations) +
    match s.phase with
    | .ready => 1
    | _ => 0

/-- A record on the iterate. -/
def report (s : Solver α) (primal dual : α) (progress : Progress) : Record α :=
  ⟨s.iterate.x, primal, dual, progress, s.iterations, s.iterate.mu⟩

/-- Stores a step. -/
def commit (s : Solver α) (it : Iterate α) (next : Evaluation α) : Solver α :=
  { s with iterate := it, known := some next, iterations := s.iterations + 1, phase := .ready }

/-! ## Beginning -/

variable [Scalar α]

/-- A run at its beginning. -/
def start (p : Program α) (o : Options α) (size : Size) (x : Matrix α) : Solver α where
  program := p
  options := o
  size := size
  system := .ofSize size
  iterate := Iterate.initial x size o.muInitial
  phase := .ready
  iterations := 0
  known := none
  last := none
  ended := false

/-- **A run from a given point**, if the options are in range and the constraints can be measured
there. -/
def create (p : Program α) (x : Matrix α) (o : Options α) : Except (Error α) (Solver α) := do
  o.validate
  return start p o (← Size.compute p x) x

/-- **The run begun again from another point**; all progress is forgotten. -/
def restart (s : Solver α) (x : Matrix α) : Except (Error α) (Solver α) :=
  return start s.program s.options (← Size.compute s.program x) x

/-! ## The Newton step -/

/-- Refuses slacks and multipliers that are not all positive, giving the first one that is not. -/
def requireInterior (s z : Matrix α) : Except (Error α) Unit :=
  match (s.data ++ z.data).find? fun v => !decide (0 < v) with
  | none => .ok ()
  | some value => .error (.breakdown .slackOrMultiplier value)

/-- The model of curvature after the step from `it` to `x` with the new multipliers `y` and `z`. -/
def nextCurvature (it : Iterate α) (e next : Evaluation α) (x y z : Matrix α) :
    Except (Error α) (Matrix α) := do
  let s ← x.subtract it.x
  if Curvature.isNull s then return it.curvature
  else
    let change ← (← next.lagrangianGradient y z).subtract (← e.lagrangianGradient y z)
    Curvature.update s change it.curvature

/-- **The next iterate**, with the functions of the program there. -/
def advance (s : Solver α) (e : Evaluation α) (r : Residual α) :
    Traced α (Iterate α × Evaluation α) := do
  let it := s.iterate
  let mu := (Barrier.ofOptions s.options).update r it.mu
  let d ← s.system.direction it e r mu
  let tau := s.options.fractionToBoundary
  let alphaMax ← toBoundary it.s d.ds tau
  let alphaDual ← toBoundary it.z d.dz tau
  let found ← (LineSearch.ofOptions s.program s.size s.options).search it.x it.s d alphaMax mu
  let alpha := found.length
  let x ← it.x.add (d.dx.scale alpha)
  let slacks ← it.s.add (d.ds.scale alpha)
  let y ← it.y.add (d.dy.scale alphaDual)
  let z ← it.z.add (d.dz.scale alphaDual)
  requireInterior slacks z
  let next ← Evaluation.compute s.program s.size x
  let curvature ← nextCurvature it e next x y z
  Traced.note (.stepped alpha alphaMax alphaDual mu)
  return ({ x, s := slacks, y, z, curvature, mu }, next)

/-! ## Examining an iterate -/

/-- The functions of the program at the iterate, and what they leave of the optimality conditions.
-/
def assess (s : Solver α) : Except (Error α) (Evaluation α × Residual α) := do
  let e ← match s.known with
    | some e => .ok e
    | none => Evaluation.compute s.program s.size s.iterate.x
  return (e, ← Residual.compute e s.iterate.s s.iterate.y s.iterate.z)

/-- **Examines the iterate**: without steps left the run has failed, at an optimal iterate it has
succeeded, and otherwise it goes on. -/
def examine (s : Solver α) : Traced α (Record α) × Solver α :=
  if s.options.maxIterations ≤ s.iterations then
    let record := s.report Scalar.infinity Scalar.infinity .failed
    (⟨[.exhausted s.iterations s.iterate.mu], .ok record⟩,
      { s with last := some record, phase := .finished record nofun })
  else
    match s.assess with
    | .error err => (⟨[], .error err⟩, { s with phase := .ready, known := none })
    | .ok (e, r) =>
      if r.isOptimal 0 s.options.globalTolerance then
        let record := s.report r.primal r.dual .success
        (⟨[.converged s.iterations r.primal r.dual], .ok record⟩,
          { s with last := some record, known := none, phase := .finished record nofun })
      else
        let record := s.report r.primal r.dual .pending
        (⟨[.examined s.iterations r.primal r.dual s.iterate.mu], .ok record⟩,
          { s with last := some record, known := none, phase := .stepping e r })

/-! ## Stepping -/

/-- **One call of the machine**: a Newton step if one is due, then a look at the iterate. -/
def step (s : Solver α) : Traced α (Record α) × Solver α :=
  match s.phase with
  | .finished record _ => (pure record, s)
  | .ready => s.examine
  | .stepping e r =>
    match s.advance e r with
    | ⟨events, .error err⟩ => (⟨events, .error err⟩, s)
    | ⟨events, .ok (it, next)⟩ =>
      let (t, s) := (s.commit it next).examine
      (⟨events ++ t.events, t.result⟩, s)

/-- **A Newton step that fails changes nothing.** -/
theorem step_error {s : Solver α} {e : Evaluation α} {r : Residual α} {err : Error α}
    (hs : s.phase = .stepping e r) (h : (s.advance e r).result = .error err) :
    s.step.1.result = .error err ∧ s.step.2 = s := by
  unfold step
  rw [hs]
  split
  · simp_all
  · simp_all
  · rename_i heq
    cases heq
    split
    · rename_i ha
      rw [ha] at h
      cases h
      exact ⟨rfl, rfl⟩
    · rename_i ha
      rw [ha] at h
      cases h

/-- A pending record on an unexamined iterate leaves a step due, and steps left. -/
theorem examine_pending {s : Solver α} {record : Record α} (h : s.examine.1.result = .ok record)
    (hp : record.progress = .pending) :
    s.iterations < s.options.maxIterations ∧
      s.examine.2.remaining = 2 * (s.options.maxIterations - s.iterations) := by
  unfold examine at h ⊢
  split
  · rename_i hmax
    rw [if_pos hmax] at h
    cases h
    cases hp
  · rename_i hmax
    rw [if_neg hmax] at h
    split
    · rename_i hassess
      simp only [hassess] at h
      cases h
    · rename_i e r hassess
      simp only [hassess] at h
      split
      · rename_i hopt
        rw [if_pos hopt] at h
        cases h
        cases hp
      · exact ⟨Nat.lt_of_not_le hmax, rfl⟩

/-- **A pending record brings the end nearer.** -/
theorem remaining_step_lt {s : Solver α} {record : Record α} (h : s.step.1.result = .ok record)
    (hp : record.progress = .pending) : s.step.2.remaining < s.remaining := by
  unfold step at h ⊢
  split
  · rename_i finished terminal hphase
    simp only [hphase] at h
    cases h
    exact absurd hp terminal
  · rename_i hphase
    simp only [hphase] at h
    obtain ⟨_, heq⟩ := examine_pending h hp
    rw [heq, remaining, hphase]
    exact Nat.lt_succ_self _
  · rename_i e r hphase
    simp only [hphase] at h
    split
    · rename_i hadv
      simp only [hadv] at h
      cases h
    · rename_i events it next hadv
      simp only [hadv] at h
      obtain ⟨hlt, heq⟩ := examine_pending h hp
      have hlt : s.iterations + 1 < s.options.maxIterations := hlt
      have heq : ((s.commit it next).examine).2.remaining =
          2 * (s.options.maxIterations - (s.iterations + 1)) := heq
      show ((s.commit it next).examine).2.remaining < s.remaining
      rw [heq, remaining, hphase]
      show 2 * (s.options.maxIterations - (s.iterations + 1)) <
        2 * (s.options.maxIterations - s.iterations)
      omega

/-! ## The stream of records -/

/-- Whether nothing follows a result in the stream of records. -/
def endsStream : Except (Error α) (Record α) → Bool
  | .ok record => record.progress.isTerminal
  | .error _ => true

/-- **The next item of the stream of records**, which ends after a terminal record or an error. -/
def next (s : Solver α) : Option (Traced α (Record α)) × Solver α :=
  if s.ended then (none, s)
  else
    let (t, s) := s.step
    (some t, { s with ended := endsStream t.result })

/-- **The rest of the stream of records**, and the solver after it. -/
def drain (s : Solver α) : List (Traced α (Record α)) × Solver α :=
  if s.ended then ([], s)
  else
    match _hs : s.step with
    | (t, s') =>
      match _ht : t.result with
      | .ok record =>
        if _hp : record.progress = .pending then
          let (items, s'') := drain { s' with ended := false }
          (t :: items, s'')
        else ([t], { s' with ended := true })
      | .error _ => ([t], { s' with ended := true })
termination_by s.remaining
decreasing_by
  have h : s.step.1.result = .ok record := by rw [_hs]; exact _ht
  have hlt := remaining_step_lt h _hp
  rw [_hs] at hlt
  exact hlt

end Solver

end InteriorPoint
