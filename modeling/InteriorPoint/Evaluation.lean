import InteriorPoint.Matrix.Norms
import InteriorPoint.Program

/-!
# Evaluation — the functions of a program at a point

`Size` fixes how many variables there are and how many rows each block of constraints has, learned
from the values at the starting point. Later values and Jacobians are held to it block by block,
and stacked in the order in which the blocks were declared. `Evaluation` collects what the method
needs at a point and refuses values that are not finite.
-/

namespace InteriorPoint

variable {α : Type}

/-- **The dimensions of a program**: its variables, and kind and rows of each block of constraints
in the order of declaration. -/
structure Size where
  vars : Nat
  blocks : List (ConstraintKind × Nat)
  deriving DecidableEq, Repr

namespace Size

/-- How many constraints of a kind there are, counted by rows. -/
def count (size : Size) (kind : ConstraintKind) : Nat :=
  ((size.blocks.filter (·.1 = kind)).map (·.2)).foldr (· + ·) 0

/-- Rows of all equality blocks. -/
def equalities (size : Size) : Nat := size.count .equality

/-- Rows of all inequality blocks. -/
def inequalities (size : Size) : Nat := size.count .inequality

/-- The rows of one block at a point. -/
def measure (x : Matrix α) (c : Constraint α) : Except (Error α) (ConstraintKind × Nat) := do
  let value ← c.value x
  value.requireColumn .constraintValue
  return (c.kind, value.rows)

/-- **The dimensions of a program**, learned by evaluating each block at a point. -/
def compute (p : Program α) (x : Matrix α) : Except (Error α) Size := do
  if x.cols ≠ 1 then throw (.invalidShape x.rows x.cols)
  return ⟨x.rows, ← p.constraints.mapM (measure x)⟩

/-- The blocks of one kind, each with the rows it is held to. -/
def blocksOf (size : Size) (p : Program α) (kind : ConstraintKind) :
    List (Constraint α × Nat) :=
  ((p.constraints.zip size.blocks).filter (·.1.kind = kind)).map fun (c, b) => (c, b.2)

/-- The value of a block at a point, a column of `rows` entries. -/
def blockValue (x : Matrix α) (c : Constraint α) (rows : Nat) : Except (Error α) (Matrix α) := do
  let value ← c.value x
  if value.shape = (rows, 1) then return value
  else throw (.mismatch .constraintValue value.shape (rows, 1))

/-- The Jacobian of a block at a point, with `rows` rows and a column per variable. -/
def blockJacobian (vars : Nat) (x : Matrix α) (c : Constraint α) (rows : Nat) :
    Except (Error α) (Matrix α) := do
  let jacobian ← c.jacobian x
  if jacobian.shape = (rows, vars) then return jacobian
  else throw (.mismatch .constraintJacobian jacobian.shape (rows, vars))

/-- **The values of all blocks of a kind**, stacked. -/
def values (size : Size) (p : Program α) (kind : ConstraintKind) (x : Matrix α) :
    Except (Error α) (Matrix α) := do
  let parts ← (size.blocksOf p kind).mapM fun (c, rows) => blockValue x c rows
  return Matrix.column (parts.toArray.flatMap Matrix.data)

/-- **The Jacobians of all blocks of a kind**, stacked. -/
def jacobians (size : Size) (p : Program α) (kind : ConstraintKind) (x : Matrix α) :
    Except (Error α) (Matrix α) := do
  let parts ← (size.blocksOf p kind).mapM fun (c, rows) =>
    blockJacobian size.vars x c rows
  Matrix.stack (Matrix.noRows size.vars :: parts)

end Size

/-- **The functions of a program at a point.** -/
structure Evaluation (α : Type) where
  gradient : Matrix α
  equality : Matrix α
  inequality : Matrix α
  equalityJacobian : Matrix α
  inequalityJacobian : Matrix α

namespace Evaluation

variable [Scalar α]

/-- Refuses an evaluation with an entry that is not finite. -/
def requireFinite (e : Evaluation α) : Except (Error α) Unit := do
  e.gradient.requireFinite .gradient
  e.equality.requireFinite .equalityConstraint
  e.inequality.requireFinite .inequalityConstraint
  e.equalityJacobian.requireFinite .equalityJacobian
  e.inequalityJacobian.requireFinite .inequalityJacobian

/-- The gradient of the objective at a point, a column with an entry per variable. -/
def objectiveGradient (p : Program α) (size : Size) (x : Matrix α) :
    Except (Error α) (Matrix α) := do
  let gradient ← p.gradient x
  if gradient.shape = (size.vars, 1) then return gradient
  else throw (.mismatch .gradient gradient.shape (size.vars, 1))

/-- **Evaluates a program at a point.** -/
def compute (p : Program α) (size : Size) (x : Matrix α) : Except (Error α) (Evaluation α) := do
  let e : Evaluation α :=
    { gradient := ← objectiveGradient p size x
      equality := ← size.values p .equality x
      inequality := ← size.values p .inequality x
      equalityJacobian := ← size.jacobians p .equality x
      inequalityJacobian := ← size.jacobians p .inequality x }
  e.requireFinite
  return e

/-- **The gradient of the Lagrangian** `f - g · y - h · z` at given multipliers. -/
def lagrangianGradient (e : Evaluation α) (y z : Matrix α) : Except (Error α) (Matrix α) := do
  let withEqualities ← e.gradient.subtract (← e.equalityJacobian.transpose.multiply y)
  withEqualities.subtract (← e.inequalityJacobian.transpose.multiply z)

end Evaluation

end InteriorPoint
