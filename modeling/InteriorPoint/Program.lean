import InteriorPoint.Formula

/-!
# Program — nonlinear programs

A program asks for the least value of an objective subject to blocks of constraints, each block
being zero (`equality`) or non-negative (`inequality`), and names a point to start from. `Draft`
collects the parts; `Draft.build` says which one is missing.
-/

namespace InteriorPoint

/-- A function from matrices to matrices that may fail. -/
abbrev MatrixFunction (α : Type) := Matrix α → Except (Error α) (Matrix α)

/-- What a block of constraints asks of its values. -/
inductive ConstraintKind where
  /-- The values are zero. -/
  | equality
  /-- The values are not negative. -/
  | inequality
  deriving DecidableEq, Repr

/-- A block of constraints with its Jacobian. -/
structure Constraint (α : Type) where
  kind : ConstraintKind
  value : MatrixFunction α
  jacobian : MatrixFunction α

/-- **A nonlinear program.** -/
structure Program (α : Type) where
  /-- The objective, a matrix with one entry. -/
  objective : MatrixFunction α
  /-- The gradient of the objective, a column. -/
  gradient : MatrixFunction α
  constraints : List (Constraint α)
  initialGuess : Matrix α

variable {α : Type}

/-- A block of constraints given by a map on dual numbers. -/
def Constraint.ofDual [Scalar α] (kind : ConstraintKind) (f : DualMap α) : Constraint α :=
  ⟨kind, f.value, f.jacobian⟩

/-- A program under construction. -/
structure Draft (α : Type) where
  objective : Option (MatrixFunction α)
  gradient : Option (MatrixFunction α)
  constraints : List (Constraint α)
  initialGuess : Option (Matrix α)

/-- What keeps a draft from being a program. -/
inductive DraftError (α : Type) where
  | missingObjective
  | missingGradient
  | missingInitialGuess
  | unfit (cause : Error α)

/-- The wording of each cause. -/
def DraftError.message : DraftError Float → String
  | .missingObjective => "Objective must be provided"
  | .missingGradient => "Gradient must be provided"
  | .missingInitialGuess => "Initial guess must be provided"
  | .unfit cause => cause.message

namespace Draft

/-- Nothing yet. -/
def empty : Draft α := ⟨none, none, [], none⟩

/-- Sets objective and gradient. -/
def withObjective (d : Draft α) (value gradient : MatrixFunction α) : Draft α :=
  { d with objective := some value, gradient := some gradient }

/-- Sets an objective on dual numbers, which brings its own gradient. -/
def withDualObjective [Scalar α] (d : Draft α) (f : DualFunction α) : Draft α :=
  d.withObjective (DualMap.ofFunction f).value f.gradient

/-- Adds a block of constraints after those that are there. -/
def withConstraint (d : Draft α) (c : Constraint α) : Draft α :=
  { d with constraints := d.constraints ++ [c] }

/-- Sets the point to start from. -/
def withInitialGuess (d : Draft α) (x : Matrix α) : Draft α :=
  { d with initialGuess := some x }

/-- **The program that was drafted**, if no part is missing and the start is a column. -/
def build (d : Draft α) : Except (DraftError α) (Program α) :=
  match d.objective, d.gradient, d.initialGuess with
  | none, _, _ => .error .missingObjective
  | some _, none, _ => .error .missingGradient
  | some _, some _, none => .error .missingInitialGuess
  | some f, some df, some x =>
    if x.cols = 1 then .ok ⟨f, df, d.constraints, x⟩
    else .error (.unfit (.invalidShape x.rows x.cols))

end Draft

end InteriorPoint
