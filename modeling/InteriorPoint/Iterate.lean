import InteriorPoint.Evaluation

/-!
# Iterate — the point the method stands at

Variables `x`, slacks `s` of the inequalities, multipliers `y` of the equalities and `z` of the
inequalities, the model of curvature and the barrier parameter; and the direction of a step from it.
-/

namespace InteriorPoint

/-- **A primal-dual iterate.** -/
structure Iterate (α : Type) where
  x : Matrix α
  s : Matrix α
  y : Matrix α
  z : Matrix α
  /-- The model of the Hessian of the Lagrangian. -/
  curvature : Matrix α
  mu : α

/-- **A search direction.** -/
structure Direction (α : Type) where
  dx : Matrix α
  ds : Matrix α
  dy : Matrix α
  dz : Matrix α

/-- The first iterate: slacks and multipliers are one, and curvature is that of a unit sphere. -/
def Iterate.initial {α : Type} [Scalar α] (x : Matrix α) (size : Size) (mu : α) : Iterate α where
  x := x
  s := Matrix.ones size.inequalities
  y := Matrix.ones size.equalities
  z := Matrix.ones size.inequalities
  curvature := Matrix.identity size.vars
  mu := mu

end InteriorPoint
