import InteriorPoint.Decimal.Text

/-!
# Error — why a computation refuses its arguments or breaks down

`Error` lists the causes; each carries the values that show it.  `Error.message` is the only place
where their wording is fixed.
-/

namespace InteriorPoint

/-- The operations that check the shapes of their arguments. -/
inductive Operation where
  | ofData
  | diag
  | stackColumns
  | stack
  | block
  | add
  | subtract
  | multiply
  | hadamard
  | dot
  | slice
  | factorize
  | solve
  | value
  | jacobian
  | objective
  | gradient
  | constraintValue
  | constraintJacobian
  | curvature
  | toBoundary
  deriving DecidableEq, Repr

/-- The name of an operation in a message. -/
def Operation.name : Operation → String
  | .ofData => "new"
  | .diag => "diag"
  | .stackColumns => "vstack_columns"
  | .stack => "vstack"
  | .block => "block"
  | .add => "add"
  | .subtract => "subtract"
  | .multiply => "multiply"
  | .hadamard => "cwise_multiply"
  | .dot => "dot"
  | .slice => "slice"
  | .factorize => "lu"
  | .solve => "lu_solve"
  | .value => "eval_fn"
  | .jacobian => "jacobian"
  | .objective => "objective"
  | .gradient => "gradient"
  | .constraintValue => "constraint value"
  | .constraintJacobian => "constraint jacobian"
  | .curvature => "bfgs"
  | .toBoundary => "maximum_step_size"

/-- The quantities that must be finite, or finite and positive, for the method to go on. -/
inductive Quantity where
  | gradient
  | equalityConstraint
  | inequalityConstraint
  | equalityJacobian
  | inequalityJacobian
  | newtonStep
  | curvatureModel
  | curvatureChange
  | slackOrMultiplier
  deriving DecidableEq, Repr

/-- The name of a quantity in a message. -/
def Quantity.name : Quantity → String
  | .gradient => "gradient"
  | .equalityConstraint => "equality constraint"
  | .inequalityConstraint => "inequality constraint"
  | .equalityJacobian => "equality jacobian"
  | .inequalityJacobian => "inequality jacobian"
  | .newtonStep => "KKT step"
  | .curvatureModel => "curvature sᵀQs"
  | .curvatureChange => "curvature sᵀr"
  | .slackOrMultiplier => "slack or multiplier"

/-- The settings of the method, in the order in which they are stored. -/
inductive Setting where
  | muInitial
  | barrierToleranceFactor
  | linearDecreaseFactor
  | superLinearDecreaseFactor
  | globalTolerance
  | maxIterations
  | gammaPhi
  | gammaTheta
  | fractionToBoundary
  | maxBacktracks
  deriving DecidableEq, Repr

/-- The name of a setting in messages and in stored options. -/
def Setting.name : Setting → String
  | .muInitial => "mu_initial"
  | .barrierToleranceFactor => "barrier_tolerance_factor"
  | .linearDecreaseFactor => "linear_decrease_factor"
  | .superLinearDecreaseFactor => "super_linear_decrease_factor"
  | .globalTolerance => "global_tolerance"
  | .maxIterations => "max_iterations"
  | .gammaPhi => "gamma_phi"
  | .gammaTheta => "gamma_theta"
  | .fractionToBoundary => "fraction_to_boundary"
  | .maxBacktracks => "max_backtracks"

/-- All settings, in order. -/
def Setting.all : List Setting :=
  [.muInitial, .barrierToleranceFactor, .linearDecreaseFactor, .superLinearDecreaseFactor,
    .globalTolerance, .maxIterations, .gammaPhi, .gammaTheta, .fractionToBoundary, .maxBacktracks]

/-- Rows and columns. -/
abbrev Shape := Nat × Nat

/-- Counts have sixty-four bits. -/
def countBound : Nat := Nat.pow 2 64

/-- **The causes of failure.** -/
inductive Error (α : Type) where
  /-- Two shapes that an operation needs to fit do not. -/
  | mismatch (op : Operation) (lhs rhs : Shape)
  /-- Elimination found no pivot other than zero in a column. -/
  | singular (column : Nat)
  /-- The initial guess is not a column. -/
  | invalidShape (rows cols : Nat)
  /-- The step to the boundary is negative. -/
  | infeasibleStep (alpha : α)
  /-- A quantity is not finite, or not positive where it has to be. -/
  | breakdown (quantity : Quantity) (value : α)
  /-- A setting is outside its range. -/
  | invalidOption (setting : Setting) (value : α)
  /-- A formula reads an input that the point does not have. -/
  | missingInput (index available : Nat)
  /-- A power needs the exponent below the least one. -/
  | missingExponent (least : Int32)
  /-- A shape has more entries than can be counted. -/
  | uncountable (rows cols : Nat)
  deriving DecidableEq, Repr

/-- A shape as a pair in brackets. -/
def Shape.text (s : Shape) : String := s!"({s.1}, {s.2})"

/-- **The wording of each cause.** -/
def Error.message : Error Float → String
  | .mismatch op lhs rhs =>
    "Dimension mismatch in `" ++ op.name ++ "`: " ++ Shape.text lhs ++ " vs " ++ Shape.text rhs
  | .singular column => s!"Matrix is singular (zero pivot in column {column})"
  | .invalidShape rows cols => s!"Initial guess must be a column vector, got {rows}x{cols}"
  | .infeasibleStep alpha =>
    "Can't find a feasible step size (alpha = " ++ Decimal.plain alpha ++ ")"
  | .breakdown quantity value =>
    "Numerical breakdown: " ++ quantity.name ++ " = " ++ Decimal.plain value
  | .invalidOption setting value =>
    "Invalid value for option `" ++ setting.name ++ "`: " ++ Decimal.plain value
  | .missingInput index available =>
    s!"Input {index} is missing from a point with {available} entries"
  | .missingExponent least => s!"There is no exponent below {least}"
  | .uncountable rows cols => s!"There is no number for {rows} times {cols} entries"

end InteriorPoint
