import InteriorPoint.Matrix.Basic

/-!
# Matrix/Block — stacking matrices and assembling them from blocks

`stack` puts matrices of one width above each other, `block` assembles a grid of blocks: within a
grid row all blocks have one height, and all grid rows have one total width.
-/

namespace InteriorPoint.Matrix

variable {α : Type}

/-- `a` on top of `b`. -/
def above (a b : Matrix α) (h : a.cols = b.cols) : Matrix α where
  rows := a.rows + b.rows
  cols := a.cols
  data := a.data ++ b.data
  size_eq := by rw [Array.size_append, a.size_eq, b.size_eq, Nat.add_mul, h]

/-- `a` to the left of `b`. -/
def beside (a b : Matrix α) (h : a.rows = b.rows) : Matrix α :=
  ofFn a.rows (a.cols + b.cols) fun i j =>
    if hj : j.val < a.cols then a.get i ⟨j, hj⟩
    else b.get (i.cast h) ⟨j - a.cols, by omega⟩

/-- **Matrices above each other**, all as wide as the first. -/
def stack : List (Matrix α) → Except (Error α) (Matrix α)
  | [] => .error (.mismatch .stack (0, 0) (0, 0))
  | first :: rest =>
    rest.foldlM (fun acc m =>
      if h : acc.cols = m.cols then .ok (acc.above m h)
      else .error (.mismatch .stack first.shape m.shape)) first

/-- **Column vectors above each other** in one column. -/
def stackColumns (vs : List (Matrix α)) : Except (Error α) (Matrix α) := do
  if vs.isEmpty then throw (.mismatch .stackColumns (0, 0) (0, 1))
  vs.forM (requireColumn .stackColumns)
  return column (vs.toArray.flatMap data)

/-- The height of a grid row: that of its first block. -/
def gridHeight (blocks : List (Matrix α)) : Nat := (blocks.head?.map rows).getD 0

/-- The width of a grid row. -/
def gridWidth (blocks : List (Matrix α)) : Nat := (blocks.map cols).foldr (· + ·) 0

/-- One grid row: its width has to be `total`, and its blocks equally high. -/
def gridRow (total : Nat) (blocks : List (Matrix α)) : Except (Error α) (Matrix α) := do
  let height := gridHeight blocks
  let width := gridWidth blocks
  if width ≠ total then throw (.mismatch .block (height, width) (height, total))
  blocks.foldlM (fun acc m =>
    if h : acc.rows = m.rows then .ok (acc.beside m h)
    else .error (.mismatch .block m.shape (acc.rows, m.cols))) (noCols height)

/-- **The matrix assembled from a grid of blocks**, as wide as its first grid row. -/
def block : List (List (Matrix α)) → Except (Error α) (Matrix α)
  | [] => .error (.mismatch .block (0, 0) (0, 0))
  | first :: rest => do
    stack (← (first :: rest).mapM (gridRow (gridWidth first)))

end InteriorPoint.Matrix
