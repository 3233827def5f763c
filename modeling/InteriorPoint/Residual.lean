import InteriorPoint.Evaluation

/-!
# Residual — how far an iterate is from being optimal

At an iterate with slacks `s` and multipliers `y`, `z` the optimality conditions of the barrier
problem for `mu` ask that the gradient of the Lagrangian vanishes, that each `sᵢ zᵢ` is `mu`, that
equalities vanish and that inequalities equal their slacks. `Residual` holds the four left-hand
sides.
-/

namespace InteriorPoint

/-- **What is left of the optimality conditions** at an iterate. -/
structure Residual (α : Type) where
  /-- The gradient of the Lagrangian. -/
  stationarity : Matrix α
  /-- The products of slacks and multipliers. -/
  complementarity : Matrix α
  equality : Matrix α
  /-- The inequalities less their slacks. -/
  inequality : Matrix α

namespace Residual

variable {α : Type} [Scalar α]

/-- The residual at slacks `s` and multipliers `y`, `z`. -/
def compute (e : Evaluation α) (s y z : Matrix α) : Except (Error α) (Residual α) :=
  return {
    stationarity := ← e.lagrangianGradient y z
    complementarity := ← s.hadamard z
    equality := e.equality
    inequality := ← e.inequality.subtract s }

/-- The violation of the constraints: the larger of the two-norms of equalities and inequalities. -/
def primal (r : Residual α) : α := Scalar.max r.equality.normTwo r.inequality.normTwo

/-- The largest entry of the gradient of the Lagrangian. -/
def dual (r : Residual α) : α := r.stationarity.normInf

/-- The two-norm of the products of slacks and multipliers less `mu`. -/
def complementarityError (r : Residual α) (mu : α) : α :=
  Scalar.sqrt (r.complementarity.data.foldl (fun acc sz => acc + (sz - mu) * (sz - mu)) 0)

/-- **The optimality error** for the barrier parameter `mu`. -/
def optimalityError (r : Residual α) (mu : α) : α :=
  Scalar.max (Scalar.max r.primal r.dual) (r.complementarityError mu)

/-- Whether the barrier problem for `mu` is solved up to `epsilon`. -/
def isOptimal (r : Residual α) (mu epsilon : α) : Bool :=
  decide (r.optimalityError mu ≤ epsilon)

/-- **The right-hand side of the Newton system** for `mu`: the four parts in one column, negated,
with `mu` taken off the products. -/
def rhs (r : Residual α) (mu : α) : Except (Error α) (Matrix α) := do
  let shifted ← r.complementarity.subtract ((Matrix.ones r.complementarity.rows).scale mu)
  let stacked ← Matrix.stackColumns [r.stationarity, shifted, r.equality, r.inequality]
  return stacked.scale (-1)

end Residual

end InteriorPoint
