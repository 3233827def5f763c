import InteriorPoint.Matrix.Basic

/-!
# Matrix/Norms — sizes and signs of the entries of a matrix

Each fold runs over the entries in the order in which they are stored, starting from zero.
-/

namespace InteriorPoint.Matrix

variable {α : Type} [Scalar α]

/-- Square root of the sum of squares. -/
def normTwo (m : Matrix α) : α :=
  Scalar.sqrt (m.data.foldl (fun acc v => acc + v * v) 0)

/-- The largest absolute value; a NaN among the entries is the answer. -/
def normInf (m : Matrix α) : α :=
  m.data.foldl (fun acc v =>
    if Scalar.isNaN acc then acc else if Scalar.isNaN v then v
    else Scalar.max acc (Scalar.abs v)) 0

/-- Sum of the logarithms of the entries. -/
def sumLn (m : Matrix α) : α := sum (m.data.map Scalar.ln)

/-- Whether each entry is greater than zero. -/
def isPositive (m : Matrix α) : Bool := m.data.all fun v => decide (0 < v)

/-- Whether each entry is finite. -/
def isFinite (m : Matrix α) : Bool := m.data.all Scalar.isFinite

/-- The first entry that is not finite. -/
def firstNonFinite? (m : Matrix α) : Option α := m.data.find? fun v => !Scalar.isFinite v

/-- Refuses a matrix with an entry that is not finite, giving the first such entry. -/
def requireFinite (quantity : Quantity) (m : Matrix α) : Except (Error α) Unit :=
  match m.firstNonFinite? with
  | some value => .error (.breakdown quantity value)
  | none => .ok ()

end InteriorPoint.Matrix
