import Mathlib
import InteriorPoint.Curvature
import InteriorPoint.Jacobian
import InteriorPoint.Wire
import InteriorPoint.Proofs.Elimination.Buffer

/-!
# Proofs/Table — matrices whose array is not known to fill their shape

A `Table` has the parts of a matrix and promises nothing about them.  Its operations are loops over
the arrays: they write single entries, copy ranges and push what they compute, and whatever they
read or write they look up first, so that an index out of range ends the computation with no result.
None of them can rely on the sizes of its arguments, and most of them store what they computed
without looking at its size.

`Table.Computation` keeps the two ways to fail apart: arguments that are refused give an error, an
index out of range gives nothing.
-/

namespace InteriorPoint

/-- **A shape and an array of entries**, which need not fit. -/
structure Table (α : Type) where
  rows : ℕ
  cols : ℕ
  data : Array α

/-- What a matrix stores. -/
def Matrix.table {α : Type} (m : Matrix α) : Table α := ⟨m.rows, m.cols, m.data⟩

@[simp] theorem Matrix.rows_table {α : Type} (m : Matrix α) : m.table.rows = m.rows := rfl

@[simp] theorem Matrix.cols_table {α : Type} (m : Matrix α) : m.table.cols = m.cols := rfl

@[simp] theorem Matrix.data_table {α : Type} (m : Matrix α) : m.table.data = m.data := rfl

namespace Table

/-- **A computation on tables**: it has a result or refuses its arguments, unless an index is out of
range. -/
abbrev Computation (α β : Type) := ExceptT (Error α) Option β

/-- What was found within an array. -/
def within {α β : Type} (found : Option β) : Computation α β := ExceptT.mk (found.map .ok)

/-- What came of something that does not look at arrays. -/
def settled {α β : Type} (r : Except (Error α) β) : Computation α β := ExceptT.mk (some r)

/-! ## Ranges of arrays -/

section Ranges

variable {β : Type}

/-- The members of an array from place `lo` up to place `hi`, if the range lies in the array. -/
def part (a : Array β) (lo hi : ℕ) : Option (Array β) :=
  if lo ≤ hi ∧ hi ≤ a.size then some (a.extract lo hi) else none

/-- Writes `xs` over an array from place `lo` on, if it ends within the array. -/
def paste (a : Array β) (lo : ℕ) (xs : Array β) : Option (Array β) :=
  if lo + xs.size ≤ a.size then
    some (a.extract 0 lo ++ xs ++ a.extract (lo + xs.size) a.size)
  else none

end Ranges

/-! ## Constructors -/

section Constructors

variable {α : Type}

/-- Rows and columns of a table. -/
def shape (t : Table α) : Shape := (t.rows, t.cols)

/-- The entry in row `i` and column `j`, which have to be below the shape. -/
def get (t : Table α) (i j : ℕ) : Option α :=
  if i < t.rows ∧ j < t.cols then t.data[i * t.cols + j]? else none

/-- A table whose entries fill its shape.  Those of the shape have been counted before. -/
def filled (rows cols : ℕ) (data : Array α) : Computation α (Table α) :=
  if data.size = rows * cols then return ⟨rows, cols, data⟩
  else throw (.mismatch .ofData (rows, cols) (data.size, 1))

/-- A table whose entries fill its shape.  Those of the shape are counted first. -/
def new (rows cols : ℕ) (data : Array α) : Computation α (Table α) :=
  if rows * cols < countBound then filled rows cols data else throw (.uncountable rows cols)

/-- The column with the given entries. -/
def column (data : Array α) : Table α := ⟨data.size, 1, data⟩

/-- The row with the given entries. -/
def row (data : Array α) : Table α := ⟨1, data.size, data⟩

/-- **A table made entry by entry**, row after row. -/
def fill (rows cols : ℕ) (f : ℕ → ℕ → Option α) : Option (Table α) := do
  let data ← (span 0 rows).foldlM (fun data r =>
    (span 0 cols).foldlM (fun data c => do return data.push (← f r c)) data) #[]
  return ⟨rows, cols, data⟩

/-- Refuses what is not a column. -/
def requireColumn (op : Operation) (t : Table α) : Computation α Unit :=
  if t.cols = 1 then return () else throw (.mismatch op t.shape (t.rows, 1))

/-- Appends the entries of one more column. -/
def appendColumn (data : Array α) (v : Table α) : Computation α (Array α) := do
  v.requireColumn .stackColumns
  return data ++ v.data

/-- Columns above each other. -/
def stackColumns (vs : List (Table α)) : Computation α (Table α) :=
  if vs.isEmpty then throw (.mismatch .stackColumns (0, 0) (0, 1))
  else do
    let data ← vs.foldlM appendColumn #[]
    return column data

/-- Appends the rows of one more table, which has to be as wide as the first. -/
def appendRows (first acc m : Table α) : Computation α (Table α) :=
  if first.cols = m.cols then return ⟨acc.rows + m.rows, first.cols, acc.data ++ m.data⟩
  else throw (.mismatch .stack first.shape m.shape)

/-- Tables above each other, all as wide as the first. -/
def stack : List (Table α) → Computation α (Table α)
  | [] => throw (.mismatch .stack (0, 0) (0, 0))
  | first :: rest => (first :: rest).foldlM (appendRows first) ⟨0, first.cols, #[]⟩

/-- Appends `cols` entries of row `r`, from column `col` on. -/
def appendRange (t : Table α) (col cols : ℕ) (data : Array α) (r : ℕ) : Option (Array α) := do
  return data ++ (← part t.data (r * t.cols + col) (r * t.cols + col + cols))

/-- The part with `rows` rows and `cols` columns from row `row` and column `col` on, copied row by
row. -/
def slice (t : Table α) (row col rows cols : ℕ) : Computation α (Table α) :=
  if row + rows ≤ t.rows ∧ col + cols ≤ t.cols then do
    let data ← within ((span row (row + rows)).foldlM (appendRange t col cols) #[])
    return ⟨rows, cols, data⟩
  else throw (.mismatch .slice t.shape (row + rows, col + cols))

end Constructors

/-! ## Blocks -/

section Blocks

variable {α : Type}

/-- The height of a grid row: that of its first block. -/
def gridHeight (blocks : List (Table α)) : ℕ := (blocks.head?.map rows).getD 0

/-- The width of a grid row. -/
def gridWidth (blocks : List (Table α)) : ℕ := (blocks.map cols).foldr (· + ·) 0

/-- Refuses a grid row that is not `total` wide or whose blocks are not equally high. -/
def checkRow (total : ℕ) (blocks : List (Table α)) : Except (Error α) Unit :=
  if gridWidth blocks = total then
    match blocks.find? (·.rows ≠ gridHeight blocks) with
    | none => .ok ()
    | some m => .error (.mismatch .block m.shape (gridHeight blocks, m.cols))
  else .error (.mismatch .block (gridHeight blocks, gridWidth blocks) (gridHeight blocks, total))

/-- Copies a block into an array with rows of length `total`, from row `row` and column `col` on. -/
def copyBlock (total row col : ℕ) (m : Table α) (out : Array α) : Option (Array α) :=
  (span 0 m.rows).foldlM (fun out r => do
    paste out ((row + r) * total + col) (← part m.data (r * m.cols) ((r + 1) * m.cols))) out

/-- Copies the blocks of a grid row, the first one to column `col`. -/
def copyRow (total row : ℕ) : List (Table α) → ℕ → Array α → Option (Array α)
  | [], _, out => some out
  | m :: ms, col, out => do copyRow total row ms (col + m.cols) (← copyBlock total row col m out)

/-- Copies grid rows, the first one to row `row`. -/
def copyGrid (total : ℕ) : List (List (Table α)) → ℕ → Array α → Option (Array α)
  | [], _, out => some out
  | blocks :: layout, row, out => do
    copyGrid total layout (row + gridHeight blocks) (← copyRow total row blocks 0 out)

/-- **The table assembled from a grid of blocks**: all grid rows are checked first. -/
def block [Zero α] : List (List (Table α)) → Computation α (Table α)
  | [] => throw (.mismatch .block (0, 0) (0, 0))
  | first :: rest => do
    let total := gridWidth first
    settled ((first :: rest).forM (checkRow total))
    let rows := ((first :: rest).map gridHeight).sum
    let data ← within (copyGrid total (first :: rest) 0 (Array.replicate (rows * total) 0))
    filled rows total data

end Blocks

/-! ## Arithmetic -/

section Arithmetic

variable {α : Type} [Scalar α]

/-- All entries zero. -/
def zeros (rows cols : ℕ) : Table α := ⟨rows, cols, Array.replicate (rows * cols) 0⟩

/-- The column of `n` ones. -/
def ones (n : ℕ) : Table α := column (Array.replicate n 1)

/-- The identity, entry by entry. -/
def identity (n : ℕ) : Option (Table α) := fill n n fun r c => some (if r = c then 1 else 0)

/-- Writes entry `i` of a column into its place on the diagonal. -/
def writeDiagonal (v : Table α) (data : Array α) (i : ℕ) : Option (Array α) := do
  Buffer.write data (i * v.rows + i) (← v.data[i]?)

/-- Zeros, and then the entries of a column written over the diagonal. -/
def diag (v : Table α) : Computation α (Table α) :=
  if v.cols = 1 then do
    let data ← within ((span 0 v.rows).foldlM (writeDiagonal v) (zeros v.rows v.rows).data)
    return ⟨v.rows, v.rows, data⟩
  else throw (.mismatch .diag v.shape (v.rows, 1))

/-- Writes the entry in row `r` and column `c` into its place across the diagonal. -/
def writeAcross (t : Table α) (r : ℕ) (data : Array α) (c : ℕ) : Option (Array α) := do
  Buffer.write data (c * t.rows + r) (← t.data[r * t.cols + c]?)

/-- Zeros, and then every entry written across the diagonal. -/
def transpose (t : Table α) : Option (Table α) := do
  let data ← (span 0 t.rows).foldlM (fun data r => (span 0 t.cols).foldlM (writeAcross t r) data)
    (Array.replicate t.data.size 0)
  return ⟨t.cols, t.rows, data⟩

/-- Joins the arrays of two tables of one shape. -/
def zipWith (op : Operation) (f : α → α → α) (a b : Table α) : Computation α (Table α) :=
  if a.shape = b.shape then return ⟨a.rows, a.cols, Array.zipWith f a.data b.data⟩
  else throw (.mismatch op a.shape b.shape)

def add : Table α → Table α → Computation α (Table α) := zipWith .add (· + ·)

def subtract : Table α → Table α → Computation α (Table α) := zipWith .subtract (· - ·)

/-- The product entry by entry, which is checked once more. -/
def hadamard (a b : Table α) : Computation α (Table α) :=
  if a.shape = b.shape then filled a.rows a.cols (Array.zipWith (· * ·) a.data b.data)
  else throw (.mismatch .hadamard a.shape b.shape)

def scale (t : Table α) (factor : α) : Table α := ⟨t.rows, t.cols, t.data.map (· * factor)⟩

/-- Adds row `k` of the right factor, times entry `k` of a row of the left one, to a row of sums. -/
def addMultiple (b : Table α) (left sums : Array α) (k : ℕ) : Option (Array α) := do
  let x ← left[k]?
  let right ← part b.data (k * b.cols) ((k + 1) * b.cols)
  return Array.zipWith (fun sum y => sum + x * y) sums right

/-- One row of a product: the multiples of the rows of the right factor are added to what is there,
one after the other, and the sums are written back. -/
def productRow (a b : Table α) (out : Array α) (r : ℕ) : Option (Array α) := do
  let left ← part a.data (r * a.cols) ((r + 1) * a.cols)
  let start ← part out (r * b.cols) ((r + 1) * b.cols)
  let sums ← (span 0 left.size).foldlM (addMultiple b left) start
  paste out (r * b.cols) sums

/-- **The product**, row by row within one array of zeros. -/
def multiply (a b : Table α) : Computation α (Table α) :=
  if a.cols = b.rows then do
    let data ← within
      ((span 0 a.rows).foldlM (productRow a b) (Array.replicate (a.rows * b.cols) 0))
    return ⟨a.rows, b.cols, data⟩
  else throw (.mismatch .multiply a.shape b.shape)

/-- The inner product of two columns. -/
def dot (a b : Table α) : Computation α α := do
  a.requireColumn .dot
  if a.shape = b.shape then return Matrix.sum (Array.zipWith (· * ·) a.data b.data)
  else throw (.mismatch .dot a.shape b.shape)

/-- Eliminates in a copy of the array of `a`, and substitutes in the array of `b`. -/
def solve (a b : Table α) : Computation α (Table α) :=
  if a.rows = a.cols then do
    match ← within (Buffer.columns a.rows a.data (span 0 a.rows).toArray (span 0 a.rows)) with
    | (_, _, some k) => throw (.singular k)
    | (lu, perm, none) =>
      if b.cols = 1 ∧ b.rows = a.rows then do
        let s : Buffer α := ⟨lu, perm, a.rows, true⟩
        let x ← within (perm.mapM (b.data[·]?))
        let x ← within (s.forward x)
        let x ← within (s.backward x)
        return column x
      else throw (.mismatch .solve (a.rows, a.rows) b.shape)
  else throw (.mismatch .factorize a.shape (a.rows, a.rows))

/-- **The damped update**: its last step reads all four tables entry by entry. -/
def update (s y q : Table α) : Computation α (Table α) := do
  s.requireColumn .curvature
  if y.shape = s.shape then do
    let qs ← q.multiply s
    let sqs ← s.dot qs
    settled (Curvature.requirePositive .curvatureModel sqs)
    let theta := Curvature.damping sqs (← s.dot y)
    let r ← (y.scale theta).add (qs.scale (1 - theta))
    let sr ← s.dot r
    settled (Curvature.requirePositive .curvatureChange sr)
    within (fill q.rows q.rows fun i j => do
      return (← q.get i j) - (← qs.get i 0) * (← qs.get j 0) / sqs +
        (← r.get i 0) * (← r.get j 0) / sr)
  else throw (.mismatch .curvature y.shape s.shape)

end Arithmetic

/-! ## Derivatives -/

section Derivatives

variable {α : Type} [Scalar α]

/-- Gives one of several inputs a speed. -/
def setSpeed (inputs : Array (Dual α)) (j : ℕ) (speed : α) : Option (Array (Dual α)) := do
  Buffer.write inputs j ⟨(← inputs[j]?).re, speed⟩

/-- One pass: input `j` is set moving, and brought to rest again after the results were found, which
have to be as many as those of the first pass. -/
def pass (f : DualMap α) (n : ℕ) (state : Array (Dual α) × Array (Array α)) (j : ℕ) :
    Computation α (Array (Dual α) × Array (Array α)) := do
  let moving ← within (setSpeed state.1 j 1)
  let outputs ← settled (f moving)
  let resting ← within (setSpeed moving j 0)
  match state.2[0]? with
  | some first =>
    if first.size = outputs.size then return (resting, state.2.push (outputs.map Dual.eps))
    else throw (.mismatch .jacobian (first.size, n) (outputs.size, n))
  | none => return (resting, state.2.push (outputs.map Dual.eps))

/-- **The Jacobian**, read off the columns that the passes found. -/
def jacobian (f : DualMap α) (x : Table α) : Computation α (Table α) := do
  x.requireColumn .jacobian
  if x.rows = 0 then do
    let outputs ← settled (f #[])
    return zeros outputs.size 0
  else do
    let (_, columns) ← (span 0 x.rows).foldlM (pass f x.rows) (DualMap.resting x.data, #[])
    let first ← within columns[0]?
    within (fill first.size x.rows fun i j => do (← columns[j]?)[i]?)

/-- The gradient: the Jacobian of one result, transposed. -/
def gradient (f : DualFunction α) (x : Table α) : Computation α (Table α) := do
  let j ← jacobian (DualMap.ofFunction f) x
  within j.transpose

end Derivatives

/-! ## Data -/

section Data

variable {α : Type} [Scalar α]

/-- A table from its three fields. -/
def ofFields? (rows cols data : Wire α) : Option (Table α) := do
  return ⟨← rows.count?, ← cols.count?, ← data.scalars?⟩

/-- **Reads the fields of a table**, whether they fit or not. -/
def ofWire? : Wire α → Option (Table α)
  | .record fields => do
    ofFields? (← Wire.required? fields "rows") (← Wire.required? fields "cols")
      (← Wire.required? fields "data")
  | .list [rows, cols, data] => ofFields? rows cols data
  | _ => none

/-- Reads a table on a machine that lets its numbers overflow: the entries of the shape are counted
modulo the bound. -/
def ofWireWrapping? (w : Wire α) : Option (Table α) :=
  (ofWire? w).filter fun t => t.data.size = t.rows * t.cols % countBound

end Data

end Table

end InteriorPoint
