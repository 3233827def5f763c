import InteriorPoint.Dual
import InteriorPoint.Matrix.Block

/-!
# Jacobian — values and derivatives of functions on dual numbers

A function on dual numbers is run once with resting inputs for its value, and once per input, that
input moving with unit speed and the others at rest, for a column of its Jacobian.
-/

namespace InteriorPoint

/-- A function of several dual numbers with several results. -/
abbrev DualMap (α : Type) := Array (Dual α) → Except (Error α) (Array (Dual α))

/-- A function of several dual numbers with one result. -/
abbrev DualFunction (α : Type) := Array (Dual α) → Except (Error α) (Dual α)

namespace DualMap

variable {α : Type} [Scalar α]

/-- The map with a function's result as its only one. -/
def ofFunction (f : DualFunction α) : DualMap α := fun v => return #[← f v]

/-- All inputs at rest. -/
def resting (x : Array α) : Array (Dual α) := x.map Dual.constant

/-- Input `j` moves, the others rest. -/
def seeded (x : Array α) (j : Nat) : Array (Dual α) :=
  x.mapIdx fun i v => if i = j then Dual.moving v else Dual.constant v

/-- **The value column** of a map at a column vector. -/
def value (f : DualMap α) (x : Matrix α) : Except (Error α) (Matrix α) := do
  x.requireColumn .value
  return Matrix.column ((← f (resting x.data)).map Dual.re)

/-- The tangents of the results when input `j` moves, as a row. -/
def tangents (f : DualMap α) (x : Matrix α) (j : Nat) : Except (Error α) (Matrix α) :=
  return Matrix.row ((← f (seeded x.data j)).map Dual.eps)

/-- **The Jacobian** of a map at a column vector: the rows of tangents, one per input, are stacked
and transposed. Every pass has to give as many results as the first one; without inputs there is
one row per result and no column. -/
def jacobian (f : DualMap α) (x : Matrix α) : Except (Error α) (Matrix α) := do
  x.requireColumn .jacobian
  match List.range x.rows with
  | [] => return Matrix.noCols (← f #[]).size
  | j :: js =>
    let first ← f.tangents x j
    let stacked ← js.foldlM (fun acc j => do
      let next ← f.tangents x j
      if h : acc.cols = next.cols then return acc.above next h
      else throw (.mismatch .jacobian (acc.cols, x.rows) (next.cols, x.rows))) first
    return stacked.transpose

end DualMap

/-- **The gradient** of a function as a column: its Jacobian has one row, which is transposed. -/
def DualFunction.gradient {α : Type} [Scalar α] (f : DualFunction α) (x : Matrix α) :
    Except (Error α) (Matrix α) :=
  return (← (DualMap.ofFunction f).jacobian x).transpose

end InteriorPoint
