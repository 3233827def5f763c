import InteriorPoint.Error
import InteriorPoint.Scalar

/-!
# Options — the settings of the method

`Options` holds eight scalars and two counts. `validate` accepts exactly the values the method is
made for, and otherwise names the first setting, in order, that is out of range.
-/

namespace InteriorPoint

/-- **The settings of the method.** -/
structure Options (α : Type) where
  /-- The barrier parameter at the start. -/
  muInitial : α
  /-- A barrier problem counts as solved when its error is at most this times the parameter. -/
  barrierToleranceFactor : α
  /-- Factor of the linear decrease of the barrier parameter. -/
  linearDecreaseFactor : α
  /-- Exponent of the faster decrease of the barrier parameter. -/
  superLinearDecreaseFactor : α
  /-- The error at which an iterate counts as optimal. -/
  globalTolerance : α
  /-- How many steps may be taken. -/
  maxIterations : Nat
  /-- What part of the violation a trial has to take off the merit. -/
  gammaPhi : α
  /-- What part of the violation a trial has to take off the violation. -/
  gammaTheta : α
  /-- What part of the way to the boundary a step may go. -/
  fractionToBoundary : α
  /-- How many step lengths the line search tries. -/
  maxBacktracks : Nat

/-- The value of a setting. -/
inductive Amount (α : Type) where
  | real (x : α)
  | count (n : Nat)

/-- Whether a setting is a count. -/
def Setting.isCount : Setting → Bool
  | .maxIterations | .maxBacktracks => true
  | _ => false

namespace Options

variable {α : Type} [Scalar α]

/-- What is used where nothing else is said. -/
def default : Options α where
  muInitial := 0.1
  barrierToleranceFactor := 10.0
  linearDecreaseFactor := 0.2
  superLinearDecreaseFactor := 1.5
  globalTolerance := 1e-8
  maxIterations := 300
  gammaPhi := 1e-8
  gammaTheta := 1e-5
  fractionToBoundary := 0.995
  maxBacktracks := 100

/-- The value of a setting. -/
def get (o : Options α) : Setting → Amount α
  | .muInitial => .real o.muInitial
  | .barrierToleranceFactor => .real o.barrierToleranceFactor
  | .linearDecreaseFactor => .real o.linearDecreaseFactor
  | .superLinearDecreaseFactor => .real o.superLinearDecreaseFactor
  | .globalTolerance => .real o.globalTolerance
  | .maxIterations => .count o.maxIterations
  | .gammaPhi => .real o.gammaPhi
  | .gammaTheta => .real o.gammaTheta
  | .fractionToBoundary => .real o.fractionToBoundary
  | .maxBacktracks => .count o.maxBacktracks

/-- Changes one setting; a count where a scalar belongs, or the other way round, changes nothing. -/
def put (o : Options α) : Setting → Amount α → Options α
  | .muInitial, .real x => { o with muInitial := x }
  | .barrierToleranceFactor, .real x => { o with barrierToleranceFactor := x }
  | .linearDecreaseFactor, .real x => { o with linearDecreaseFactor := x }
  | .superLinearDecreaseFactor, .real x => { o with superLinearDecreaseFactor := x }
  | .globalTolerance, .real x => { o with globalTolerance := x }
  | .maxIterations, .count n => { o with maxIterations := n }
  | .gammaPhi, .real x => { o with gammaPhi := x }
  | .gammaTheta, .real x => { o with gammaTheta := x }
  | .fractionToBoundary, .real x => { o with fractionToBoundary := x }
  | .maxBacktracks, .count n => { o with maxBacktracks := n }
  | _, _ => o

/-- **The range of each scalar setting**, counts being free. -/
def InRange : Setting → α → Prop
  | .muInitial, x => 0 < x
  | .barrierToleranceFactor, x => 0 < x
  | .linearDecreaseFactor, x => 0 < x ∧ x < 1
  | .superLinearDecreaseFactor, x => 1 < x ∧ x < 2.0
  | .globalTolerance, x => 0 < x
  | .gammaPhi, x => 0 < x ∧ x < 1
  | .gammaTheta, x => 0 < x ∧ x < 1
  | .fractionToBoundary, x => 0 < x ∧ x < 1
  | .maxIterations, _ => True
  | .maxBacktracks, _ => True

instance (s : Setting) (x : α) : Decidable (InRange s x) := by
  cases s <;> unfold InRange <;> infer_instance

/-- Refuses a setting that is out of range. -/
def check (o : Options α) (s : Setting) : Except (Error α) Unit :=
  match o.get s with
  | .count _ => .ok ()
  | .real x => if InRange s x then .ok () else .error (.invalidOption s x)

/-- **Refuses options with a setting out of range**, naming the first one. -/
def validate (o : Options α) : Except (Error α) Unit := Setting.all.forM o.check

end Options

end InteriorPoint
