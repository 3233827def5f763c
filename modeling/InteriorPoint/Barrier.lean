import InteriorPoint.Options
import InteriorPoint.Residual

/-!
# Barrier — when and how the barrier parameter goes down

The parameter stays while the barrier problem for it is not solved. Once it is, the parameter goes
down to the smaller of a fixed part and a fixed power of itself, but not below a tenth of the
tolerance; and again, as long as the iterate also solves the next barrier problem.
-/

namespace InteriorPoint

/-- **The rule for the barrier parameter.** -/
structure Barrier (α : Type) where
  toleranceFactor : α
  linearFactor : α
  power : α
  /-- The parameter does not go below this. -/
  floor : α

namespace Barrier

variable {α : Type} [Scalar α]

/-- The rule that options ask for. -/
def ofOptions (o : Options α) : Barrier α where
  toleranceFactor := o.barrierToleranceFactor
  linearFactor := o.linearDecreaseFactor
  power := o.superLinearDecreaseFactor
  floor := o.globalTolerance / 10.0

/-- One decrease. -/
def decrease (b : Barrier α) (mu : α) : α :=
  Scalar.max b.floor (Scalar.min (b.linearFactor * mu) (Scalar.pow mu b.power))

/-- Whether the barrier problem for `mu` is solved. -/
def isSolved (b : Barrier α) (r : Residual α) (mu : α) : Bool :=
  r.isOptimal mu (b.toleranceFactor * mu)

/-- Decreases the parameter while its barrier problem is solved and a decrease makes it smaller,
in at most the given number of rounds. -/
def descend (b : Barrier α) (r : Residual α) (mu : α) : (rounds : Nat) → α
  | 0 => mu
  | rounds + 1 =>
    if b.isSolved r mu then
      let next := b.decrease mu
      if mu ≤ next then mu else b.descend r next rounds
    else mu

/-- **The barrier parameter of the next step.** The number of rounds is no restriction: it is at
least the length of any descent from `mu` to the floor. -/
def update (b : Barrier α) (r : Residual α) (mu : α) : α :=
  b.descend r mu (Scalar.descentBound b.linearFactor mu b.floor)

end Barrier

end InteriorPoint
