import InteriorPoint.Matrix.Basic

/-!
# Record — what the method reports

One `Record` per iterate that was examined, saying how far the iterate is from optimal and whether
more follow; and the `Verdict` at which a run that is driven to its end arrives.
-/

namespace InteriorPoint

/-- Where a record stands in a run. -/
inductive Progress where
  /-- More steps follow. -/
  | pending
  /-- The iterate is optimal. -/
  | success
  /-- No step is left. -/
  | failed
  deriving DecidableEq, Repr

/-- The word for it. -/
def Progress.text : Progress → String
  | .pending => "pending"
  | .success => "success"
  | .failed => "failed"

/-- Whether no record follows. -/
def Progress.isTerminal : Progress → Bool
  | .pending => false
  | .success | .failed => true

/-- **The report on an iterate.**  One that failed has infinite infeasibilities. -/
structure Record (α : Type) where
  x : Matrix α
  primal : α
  dual : α
  progress : Progress
  /-- How many steps led to the iterate. -/
  iteration : Nat
  /-- The barrier parameter of the last of them. -/
  mu : α

/-- How a driven run ends. -/
inductive Verdict where
  | optimal
  | iterationLimit
  | interrupted
  | timeLimit
  deriving DecidableEq, Repr

/-- The word for it. -/
def Verdict.text : Verdict → String
  | .optimal => "Optimal"
  | .iterationLimit => "IterationLimit"
  | .interrupted => "Interrupted"
  | .timeLimit => "TimeLimit"

end InteriorPoint
