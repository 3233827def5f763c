import InteriorPoint.Iterate
import InteriorPoint.Factorization
import InteriorPoint.Residual

/-!
# Newton — the search direction

The direction solves the Newton system of the optimality conditions of the barrier problem, in the
unknowns `dx`, `ds`, `dy`, `dz` and in full:

    B    0         -Jgᵀ   -Jhᵀ
    0    diag z     0      diag s
    Jg   0          0      0
    Jh  -I          0      0
-/

namespace InteriorPoint

/-- **A Newton system** with `n` variables, `p` equalities and `k` inequalities. -/
structure NewtonSystem where
  n : Nat
  p : Nat
  k : Nat
  deriving DecidableEq, Repr

/-- The system of a program. -/
def NewtonSystem.ofSize (size : Size) : NewtonSystem :=
  ⟨size.vars, size.equalities, size.inequalities⟩

namespace NewtonSystem

variable {α : Type} [Scalar α]

/-- The matrix of the system. -/
def matrix (sys : NewtonSystem) (it : Iterate α) (e : Evaluation α) :
    Except (Error α) (Matrix α) := do
  let diagZ ← it.z.diag
  let diagS ← it.s.diag
  let (n, p, k) := (sys.n, sys.p, sys.k)
  Matrix.block
    [[it.curvature, .zeros n k, e.equalityJacobian.transpose.scale (-1),
        e.inequalityJacobian.transpose.scale (-1)],
      [.zeros k n, diagZ, .zeros k p, diagS],
      [e.equalityJacobian, .zeros p k, .zeros p p, .zeros p k],
      [e.inequalityJacobian, (Matrix.identity k).scale (-1), .zeros k p, .zeros k k]]

/-- The parts of a solution of the system. -/
def split (sys : NewtonSystem) (solution : Matrix α) : Except (Error α) (Direction α) :=
  return {
    dx := ← solution.slice 0 0 sys.n 1
    ds := ← solution.slice sys.n 0 sys.k 1
    dy := ← solution.slice (sys.n + sys.k) 0 sys.p 1
    dz := ← solution.slice (sys.n + sys.k + sys.p) 0 sys.k 1 }

/-- **The Newton direction** for the barrier parameter `mu`. -/
def direction (sys : NewtonSystem) (it : Iterate α) (e : Evaluation α) (r : Residual α) (mu : α) :
    Except (Error α) (Direction α) := do
  let matrix ← sys.matrix it e
  let rhs ← r.rhs mu
  let solution ← solveLinearSystem matrix rhs
  solution.requireFinite .newtonStep
  sys.split solution

end NewtonSystem

end InteriorPoint
