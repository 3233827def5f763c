import InteriorPoint.Jacobian

/-!
# Formula — functions written as expressions

`Formula` is an expression over numbered inputs, evaluated on dual numbers. `VectorFormula` has
several results and may branch on its inputs; it is read either as a map on dual numbers, or as a
function from matrices to matrices whose results fill a given shape.
-/

namespace InteriorPoint

/-- **An expression** over inputs and dual numbers. -/
inductive Formula (α : Type) where
  | dual (d : Dual α)
  | input (i : Nat)
  | add (a b : Formula α)
  | sub (a b : Formula α)
  | mul (a b : Formula α)
  | div (a b : Formula α)
  | neg (a : Formula α)
  | exp (a : Formula α)
  | ln (a : Formula α)
  | sqrt (a : Formula α)
  | powInt (a : Formula α) (n : Int32)
  | pow (a : Formula α) (c : α)

variable {α : Type} [Scalar α]

/-- Reads an input, which has to be there. -/
def readInput (x : Array (Dual α)) (i : Nat) : Except (Error α) (Dual α) :=
  if h : i < x.size then .ok x[i] else .error (.missingInput i x.size)

namespace Formula

/-- A number that does not move. -/
def const (v : α) : Formula α := .dual (Dual.constant v)

/-- **The value of an expression** on given inputs. -/
def eval (x : Array (Dual α)) : Formula α → Except (Error α) (Dual α)
  | dual d => .ok d
  | input i => readInput x i
  | add a b => return (← a.eval x) + (← b.eval x)
  | sub a b => return (← a.eval x) - (← b.eval x)
  | mul a b => return (← a.eval x) * (← b.eval x)
  | div a b => return (← a.eval x) / (← b.eval x)
  | neg a => return -(← a.eval x)
  | exp a => return (← a.eval x).exp
  | ln a => return (← a.eval x).ln
  | sqrt a => return (← a.eval x).sqrt
  | powInt a n => do (← a.eval x).powInt n
  | pow a c => return (← a.eval x).pow c

/-- An expression as a function of dual numbers. -/
def function (f : Formula α) : DualFunction α := fun x => f.eval x

end Formula

/-- What a branch depends on. -/
inductive Condition (α : Type) where
  /-- Input `i` moves with unit speed. -/
  | seeded (i : Nat)
  /-- The value of an expression is greater than a bound. -/
  | exceeds (f : Formula α) (bound : α)

/-- Decides a branch. -/
def Condition.holds (x : Array (Dual α)) : Condition α → Except (Error α) Bool
  | seeded i => return (← readInput x i).eps == 1
  | exceeds f bound => return decide (bound < (← f.eval x).re)

/-- **Several expressions**, possibly chosen by branching.  The shape says how the results fill a
matrix. -/
inductive VectorFormula (α : Type) where
  | outputs (shape : Shape) (fs : List (Formula α))
  | branch (condition : Condition α) (yes no : VectorFormula α)

namespace VectorFormula

/-- The results on given inputs, with their shape. -/
def eval (x : Array (Dual α)) : VectorFormula α → Except (Error α) (Shape × Array (Dual α))
  | outputs shape fs => return (shape, (← fs.mapM (Formula.eval x)).toArray)
  | branch c yes no => do if (← c.holds x) then yes.eval x else no.eval x

/-- The results as a map on dual numbers; the shape does not count. -/
def map (f : VectorFormula α) : DualMap α := fun x => return (← f.eval x).2

/-- **The results as a matrix** of the formula's shape, at a point whose entries are at rest. -/
def fill (f : VectorFormula α) (x : Matrix α) : Except (Error α) (Matrix α) := do
  let (shape, outs) ← f.eval (DualMap.resting x.data)
  Matrix.ofData shape.1 shape.2 (outs.map Dual.re)

end VectorFormula

end InteriorPoint
