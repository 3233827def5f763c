import InteriorPoint.Scalar
import InteriorPoint.Decimal.Digits
import InteriorPoint.Decimal.Text
import InteriorPoint.Decimal.Reader
import InteriorPoint.Error
import InteriorPoint.Matrix.Basic
import InteriorPoint.Matrix.Block
import InteriorPoint.Matrix.Norms
import InteriorPoint.Matrix.Text
import InteriorPoint.Factorization
import InteriorPoint.Dual
import InteriorPoint.Jacobian
import InteriorPoint.Formula
import InteriorPoint.Options
import InteriorPoint.Program
import InteriorPoint.Evaluation
import InteriorPoint.Residual
import InteriorPoint.Iterate
import InteriorPoint.Newton
import InteriorPoint.Barrier
import InteriorPoint.Curvature
import InteriorPoint.Record
import InteriorPoint.Traced
import InteriorPoint.LineSearch
import InteriorPoint.Solver
import InteriorPoint.Hooks
import InteriorPoint.Wire
import InteriorPoint.Demo
import InteriorPoint.Main
import InteriorPoint.Proofs.Sequence
import InteriorPoint.Proofs.Matrix.Shape
import InteriorPoint.Proofs.Fit
import InteriorPoint.Proofs.Solver.Run
import InteriorPoint.Proofs.Solver.Atomicity
import InteriorPoint.Proofs.Double
import InteriorPoint.Proofs.Solver.Success
import InteriorPoint.Proofs.Exact
import InteriorPoint.Proofs.Matrix.Entries
import InteriorPoint.Proofs.Elimination.Triangles
import InteriorPoint.Proofs.Elimination.Substitution
import InteriorPoint.Proofs.LinearSystem
import InteriorPoint.Proofs.Matrix.Grid
import InteriorPoint.Proofs.Newton
import InteriorPoint.Proofs.Solver.Invariant
import InteriorPoint.Proofs.Faults
import InteriorPoint.Proofs.Newton.Layout
import InteriorPoint.Proofs.Boundary
import InteriorPoint.Proofs.Curvature
import InteriorPoint.Proofs.Options
import InteriorPoint.Proofs.Solver.Refusal
import InteriorPoint.Proofs.LineSearch
import InteriorPoint.Proofs.Newton.Solvability
import InteriorPoint.Proofs.Solver.Progress
import InteriorPoint.Proofs.Finite
import InteriorPoint.Proofs.Solver.Finiteness
import InteriorPoint.Proofs.Dual
import InteriorPoint.Proofs.Formula
import InteriorPoint.Proofs.Jacobian
import InteriorPoint.Proofs.Solver.Calls
import InteriorPoint.Proofs.Solver.Stream
import InteriorPoint.Proofs.Solver.Memory
import InteriorPoint.Proofs.Solver.Drivers
import InteriorPoint.Proofs.Solver.Restart
import InteriorPoint.Proofs.Stacking
import InteriorPoint.Proofs.Solver.Stacking
import InteriorPoint.Proofs.Matrix.Reorder
import InteriorPoint.Proofs.Reorder
import InteriorPoint.Proofs.Solver.Reorder
import InteriorPoint.Proofs.Affine
import InteriorPoint.Proofs.Solver.Affine
import InteriorPoint.Proofs.Matrix.Norms
import InteriorPoint.Proofs.LineSearch.Backtracking
import InteriorPoint.Proofs.Curvature.Secant
import InteriorPoint.Proofs.LineSearch.Progress
import InteriorPoint.Proofs.LineSearch.Undefined
import InteriorPoint.Proofs.Barrier
import InteriorPoint.Proofs.Boundary.Largest
import InteriorPoint.Proofs.Elimination.Packed
import InteriorPoint.Proofs.Solver.Barrier
import InteriorPoint.Proofs.Solver.Symmetry
import InteriorPoint.Proofs.Evaluation
import InteriorPoint.Proofs.Matrix.Block
import InteriorPoint.Proofs.Jacobian.Omitted
import InteriorPoint.Proofs.Elimination.Buffer
import InteriorPoint.Proofs.Elimination.Reuse
import InteriorPoint.Proofs.Table
import InteriorPoint.Proofs.Table.Cells
import InteriorPoint.Proofs.Table.Operations
import InteriorPoint.Proofs.Table.Product
import InteriorPoint.Proofs.Table.Assembly
import InteriorPoint.Proofs.Table.Derived
import InteriorPoint.Proofs.Table.History
import InteriorPoint.Proofs.Wire
