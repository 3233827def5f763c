import InteriorPoint.Solver

/-!
# Hooks — watching a run and stopping it

`Hooks σ α` says what happens around the records of a driven run: an observer is shown each
record, and a judge may stop the run after a pending one. Both keep their state in `σ`.
`Solver.solve` drives a run with any hooks; `Observer` and `Stopper` are the ones that come with
the library.
-/

namespace InteriorPoint

variable {α σ : Type}

/-- **What happens around the records of a run.** -/
structure Hooks (σ α : Type) where
  /-- Before the first record. -/
  begin : σ → σ
  /-- At each record: the events that come up, and the new state. -/
  observe : Record α → σ → List (Event α) × σ
  /-- After each pending record: whether to stop. -/
  judge : Record α → σ → Option Verdict × σ

/-- The end of a driven run. -/
structure Driven (σ α : Type) where
  events : List (Event α)
  verdict : Except (Error α) Verdict
  hooks : σ
  solver : Solver α

namespace Solver

variable [Scalar α]

/-- Steps until a terminal record, an error, or the judge's word. -/
def drive (h : Hooks σ α) (st : σ) (s : Solver α) : Driven σ α :=
  match _hs : s.step with
  | (t, s') =>
    match _ht : t.result with
    | .error err => ⟨t.events, .error err, st, s'⟩
    | .ok record =>
      let (shown, st) := h.observe record st
      let events := t.events ++ shown
      match _hp : record.progress with
      | .success => ⟨events, .ok .optimal, st, s'⟩
      | .failed => ⟨events, .ok .iterationLimit, st, s'⟩
      | .pending =>
        match h.judge record st with
        | (some verdict, st) =>
          ⟨events ++ [.stopped s'.iterations verdict], .ok verdict, st, s'⟩
        | (none, st) =>
          let rest := drive h st s'
          { rest with events := events ++ rest.events }
termination_by s.remaining
decreasing_by
  have h : s.step.1.result = .ok record := by rw [_hs]; exact _ht
  have hlt := remaining_step_lt h _hp
  rw [_hs] at hlt
  exact hlt

/-- **Drives a run to its end.** -/
def solve (h : Hooks σ α) (st : σ) (s : Solver α) : Driven σ α :=
  s.drive h (h.begin st)

end Solver

/-! ## Observers -/

/-- **The observers of the library.** -/
inductive Observer (α : Type) where
  | silent
  /-- Reports the infeasibilities of every record. -/
  | convergence
  /-- Keeps every record, the last one first. -/
  | history (newestFirst : List (Record α))

namespace Observer

/-- A history forgets earlier runs. -/
def begin : Observer α → Observer α
  | .history _ => .history []
  | o => o

/-- Shows a record. -/
def observe (record : Record α) : Observer α → List (Event α) × Observer α
  | .silent => ([], .silent)
  | .convergence => ([.observed record], .convergence)
  | .history kept => ([], .history (record :: kept))

/-- The records kept, in order. -/
def records : Observer α → Option (List (Record α))
  | .history kept => some kept.reverse
  | _ => none

end Observer

/-! ## Stoppers -/

/-- **The stop conditions of the library.** -/
inductive Stopper where
  | never
  /-- Stops once this many whole seconds have gone by. -/
  | timeout (seconds : Nat)
  /-- Stops if the run was interrupted. -/
  | interrupt (interrupted : Bool)
  /-- Stops as soon as one of several does. -/
  | any (stoppers : List Stopper)
  deriving Inhabited

/-- The word of a stop condition `elapsed` seconds after the run began. -/
def Stopper.judge (elapsed : Nat) : Stopper → Option Verdict
  | .never => none
  | .timeout seconds => if seconds ≤ elapsed then some .timeLimit else none
  | .interrupt interrupted => if interrupted then some .interrupted else none
  | .any [] => none
  | .any (t :: ts) => (t.judge elapsed).or ((Stopper.any ts).judge elapsed)

/-- How many parts of a stop condition listen to interrupts. -/
def Stopper.listeners : Stopper → Nat
  | .never => 0
  | .timeout _ => 0
  | .interrupt _ => 1
  | .any [] => 0
  | .any (t :: ts) => t.listeners + (Stopper.any ts).listeners

/-- Interrupts are delivered to one place, which can be taken once and is never given back. -/
structure InterruptSource where
  taken : Bool

/-- The place for interrupts is taken. -/
inductive HookError where
  | handlerTaken

/-- The wording of it. -/
def HookError.message : HookError → String
  | .handlerTaken => "Ctrl-C error: Ctrl-C signal handler already registered"

/-- **Sets up a stop condition.**  Its listeners take the place for interrupts one after the other,
and the first to find it taken is refused; what was taken before that stays taken. -/
def InterruptSource.setUp (src : InterruptSource) (t : Stopper) :
    Except HookError Unit × InterruptSource :=
  let after : InterruptSource := ⟨src.taken || decide (0 < t.listeners)⟩
  if src.taken.toNat + t.listeners ≤ 1 then (.ok (), after) else (.error .handlerTaken, after)

/-- The hooks made of an observer and a stop condition; `clock` gives the whole seconds since the
run began at each record. -/
def Hooks.standard (clock : Record α → Nat) (stopper : Stopper) : Hooks (Observer α) α where
  begin := Observer.begin
  observe := Observer.observe
  judge record observer := (stopper.judge (clock record), observer)

end InteriorPoint
