import InteriorPoint.Error
import InteriorPoint.Scalar

/-!
# Matrix/Basic — dense matrices whose shapes are known when the program runs

A `Matrix α` is a row-major array together with its shape; that the array fills the shape is part
of the type. Entries are read through `get`, whose indices are bounded by the shape, and new
matrices are made entry by entry through `ofFn`; `get_ofFn` and `ext` say that this is all there
is to a matrix.

Operations that need shapes to fit check them and fail with `Error.mismatch`; the total operation
behind a check (`zipWith`, `mul`) takes the fit as an argument.
-/

namespace InteriorPoint

/-- **A dense matrix**, stored row after row. -/
structure Matrix (α : Type) where
  rows : Nat
  cols : Nat
  data : Array α
  size_eq : data.size = rows * cols

namespace Matrix

variable {α β : Type}

/-- Rows and columns of a matrix. -/
def shape (m : Matrix α) : Shape := (m.rows, m.cols)

/-! ## Entries -/

/-- The place of an entry in the array is inside the array. -/
theorem place_lt {rows cols i j : Nat} (hi : i < rows) (hj : j < cols) :
    i * cols + j < rows * cols :=
  calc i * cols + j < i * cols + cols := Nat.add_lt_add_left hj _
    _ = (i + 1) * cols := (Nat.succ_mul i cols).symm
    _ ≤ rows * cols := Nat.mul_le_mul_right cols hi

/-- The row of a place in the array. -/
theorem div_lt_rows {rows cols k : Nat} (hk : k < rows * cols) : k / cols < rows :=
  Nat.div_lt_of_lt_mul (Nat.mul_comm rows cols ▸ hk)

/-- The column of a place in the array. -/
theorem mod_lt_cols {rows cols k : Nat} (hk : k < rows * cols) : k % cols < cols :=
  Nat.mod_lt _ (Nat.pos_of_ne_zero fun h => by simp [h] at hk)

/-- The entry in row `i` and column `j`. -/
def get (m : Matrix α) (i : Fin m.rows) (j : Fin m.cols) : α :=
  have : i.val * m.cols + j.val < m.data.size := m.size_eq ▸ place_lt i.isLt j.isLt
  m.data[i.val * m.cols + j.val]

/-- The entry in row `i` and column `j`, if the matrix has one there. -/
def get? (m : Matrix α) (i j : Nat) : Option α :=
  if h : i < m.rows ∧ j < m.cols then some (m.get ⟨i, h.1⟩ ⟨j, h.2⟩) else none

/-- The matrix with entry `f i j` in row `i` and column `j`. -/
def ofFn (rows cols : Nat) (f : Fin rows → Fin cols → α) : Matrix α where
  rows := rows
  cols := cols
  data := Array.ofFn fun k : Fin (rows * cols) =>
    f ⟨k.val / cols, div_lt_rows k.isLt⟩ ⟨k.val % cols, mod_lt_cols k.isLt⟩
  size_eq := by simp

@[simp] theorem rows_ofFn (rows cols : Nat) (f : Fin rows → Fin cols → α) :
    (ofFn rows cols f).rows = rows := rfl

@[simp] theorem cols_ofFn (rows cols : Nat) (f : Fin rows → Fin cols → α) :
    (ofFn rows cols f).cols = cols := rfl

/-- **An entry of a matrix made entry by entry.** -/
@[simp] theorem get_ofFn (rows cols : Nat) (f : Fin rows → Fin cols → α) (i : Fin rows)
    (j : Fin cols) : (ofFn rows cols f).get i j = f i j := by
  have hdiv : (i.val * cols + j.val) / cols = i.val := by
    have : 0 < cols := Nat.zero_lt_of_lt j.isLt
    rw [Nat.mul_comm, Nat.mul_add_div this, Nat.div_eq_of_lt j.isLt, Nat.add_zero]
  have hmod : (i.val * cols + j.val) % cols = j.val := by
    rw [Nat.mul_comm, Nat.mul_add_mod, Nat.mod_eq_of_lt j.isLt]
  simp only [get, ofFn, Array.getElem_ofFn, hdiv, hmod]

/-- **A matrix is its shape and its entries.** -/
theorem ext {a b : Matrix α} (hr : a.rows = b.rows) (hc : a.cols = b.cols)
    (h : ∀ i j, a.get i j = b.get (i.cast hr) (j.cast hc)) : a = b := by
  obtain ⟨r, c, da, ha⟩ := a
  obtain ⟨r', c', db, hb⟩ := b
  obtain rfl : r = r' := hr
  obtain rfl : c = c' := hc
  simp only [mk.injEq, true_and]
  apply Array.ext (ha.trans hb.symm)
  intro k hk hk'
  have hlt : k < r * c := ha ▸ hk
  have key := h ⟨k / c, div_lt_rows hlt⟩ ⟨k % c, mod_lt_cols hlt⟩
  have hplace : k / c * c + k % c = k := by
    rw [Nat.mul_comm]; exact Nat.div_add_mod k c
  simpa only [get, Fin.cast_mk, hplace] using key

/-- Two matrices are equal if their shapes are and their entries are in the scalars' own sense. -/
instance [BEq α] : BEq (Matrix α) where
  beq a b := a.rows == b.rows && a.cols == b.cols && a.data == b.data

/-! ## Constructors -/

/-- A matrix from its shape and its entries, row after row.  The entries of the shape are counted
first. -/
def ofData (rows cols : Nat) (data : Array α) : Except (Error α) (Matrix α) :=
  if rows * cols < countBound then
    if h : data.size = rows * cols then .ok ⟨rows, cols, data, h⟩
    else .error (.mismatch .ofData (rows, cols) (data.size, 1))
  else .error (.uncountable rows cols)

/-- The column vector with the given entries. -/
def column (data : Array α) : Matrix α := ⟨data.size, 1, data, (Nat.mul_one _).symm⟩

/-- The row vector with the given entries. -/
def row (data : Array α) : Matrix α := ⟨1, data.size, data, (Nat.one_mul _).symm⟩

/-- A matrix without columns. -/
def noCols (rows : Nat) : Matrix α := ⟨rows, 0, #[], rfl⟩

/-- A matrix without rows. -/
def noRows (cols : Nat) : Matrix α := ⟨0, cols, #[], (Nat.zero_mul cols).symm⟩

/-- The matrix whose rows are given. -/
def ofRows {rows cols : Nat} (m : Vector (Vector α cols) rows) : Matrix α :=
  ofFn rows cols fun i j => (m.get i).get j

/-- The rows of a matrix. -/
def toRows (m : Matrix α) : Vector (Vector α m.cols) m.rows :=
  Vector.ofFn fun i => Vector.ofFn fun j => m.get i j

/-! ## Columns -/

/-- Whether the matrix is a column vector. -/
def isColumn (m : Matrix α) : Bool := m.cols == 1

/-- Whether the matrix is a row vector. -/
def isRow (m : Matrix α) : Bool := m.rows == 1

/-- Refuses what is not a column vector. -/
def requireColumn (op : Operation) (m : Matrix α) : Except (Error α) Unit :=
  if m.cols = 1 then .ok () else .error (.mismatch op m.shape (m.rows, 1))

/-- The entry of a column vector. -/
def entry (v : Matrix α) (h : v.cols = 1) (i : Fin v.rows) : α :=
  v.get i ⟨0, h ▸ Nat.one_pos⟩

/-! ## Entry by entry -/

/-- Applies `f` to each entry. -/
def map (f : α → β) (m : Matrix α) : Matrix β :=
  ⟨m.rows, m.cols, m.data.map f, by simpa using m.size_eq⟩

@[simp] theorem rows_map (f : α → β) (m : Matrix α) : (m.map f).rows = m.rows := rfl

@[simp] theorem cols_map (f : α → β) (m : Matrix α) : (m.map f).cols = m.cols := rfl

@[simp] theorem get_map (f : α → β) (m : Matrix α) (i : Fin m.rows) (j : Fin m.cols) :
    (m.map f).get i j = f (m.get i j) := by
  simp [get, map]

/-- Joins two matrices of one shape entry by entry. -/
def zipWith (f : α → α → α) (a b : Matrix α) (hr : a.rows = b.rows) (hc : a.cols = b.cols) :
    Matrix α :=
  ofFn a.rows a.cols fun i j => f (a.get i j) (b.get (i.cast hr) (j.cast hc))

/-- Joins two matrices entry by entry, or names `op` in the error if their shapes differ. -/
def zipWith? (op : Operation) (f : α → α → α) (a b : Matrix α) : Except (Error α) (Matrix α) :=
  if h : a.rows = b.rows ∧ a.cols = b.cols then .ok (zipWith f a b h.1 h.2)
  else .error (.mismatch op a.shape b.shape)

/-- Rows and columns exchanged. -/
def transpose (m : Matrix α) : Matrix α := ofFn m.cols m.rows fun i j => m.get j i

@[simp] theorem rows_transpose (m : Matrix α) : m.transpose.rows = m.cols := rfl

@[simp] theorem cols_transpose (m : Matrix α) : m.transpose.cols = m.rows := rfl

@[simp] theorem get_transpose (m : Matrix α) (i : Fin m.cols) (j : Fin m.rows) :
    m.transpose.get i j = m.get j i := get_ofFn ..

/-- The `rows × cols` part whose upper left corner is in row `row` and column `col`. -/
def slice (m : Matrix α) (row col rows cols : Nat) : Except (Error α) (Matrix α) :=
  if h : row + rows ≤ m.rows ∧ col + cols ≤ m.cols then
    .ok (ofFn rows cols fun i j => m.get ⟨row + i, by omega⟩ ⟨col + j, by omega⟩)
  else .error (.mismatch .slice m.shape (row + rows, col + cols))

/-! ## Arithmetic -/

variable [Scalar α]

/-- All entries zero. -/
def zeros (rows cols : Nat) : Matrix α := ofFn rows cols fun _ _ => 0

/-- The column of `n` ones. -/
def ones (n : Nat) : Matrix α := ofFn n 1 fun _ _ => 1

/-- The identity matrix. -/
def identity (n : Nat) : Matrix α := ofFn n n fun i j => if i = j then 1 else 0

/-- The square matrix with a column vector on its diagonal and zeros elsewhere. -/
def diag (v : Matrix α) : Except (Error α) (Matrix α) :=
  if h : v.cols = 1 then
    .ok (ofFn v.rows v.rows fun i j => if i = j then v.entry h i else 0)
  else .error (.mismatch .diag v.shape (v.rows, 1))

def add : Matrix α → Matrix α → Except (Error α) (Matrix α) := zipWith? .add (· + ·)

def subtract : Matrix α → Matrix α → Except (Error α) (Matrix α) := zipWith? .subtract (· - ·)

/-- The product entry by entry. -/
def hadamard : Matrix α → Matrix α → Except (Error α) (Matrix α) := zipWith? .hadamard (· * ·)

/-- Multiplies each entry by a factor, which stands on the right. -/
def scale (m : Matrix α) (factor : α) : Matrix α := m.map (· * factor)

/-- Row `r` of a product: starting from zeros, one row of the right factor after the other is
added to it, each times its entry of the left factor. -/
def productRow (a b : Matrix α) (h : a.cols = b.rows) (r : Fin a.rows) : Vector α b.cols :=
  (List.finRange a.cols).foldl
    (fun acc k => Vector.ofFn fun c => acc.get c + a.get r k * b.get (k.cast h) c)
    (Vector.replicate b.cols 0)

/-- The product of two matrices that fit. -/
def mul (a b : Matrix α) (h : a.cols = b.rows) : Matrix α :=
  ofRows (Vector.ofFn (productRow a b h))

/-- **The matrix product.** -/
def multiply (a b : Matrix α) : Except (Error α) (Matrix α) :=
  if h : a.cols = b.rows then .ok (mul a b h)
  else .error (.mismatch .multiply a.shape b.shape)

/-- The sum of an array, from the left and starting with a negative zero: that is what adding
nothing gives, and it leaves every first summand as it is. -/
def sum (xs : Array α) : α := xs.foldl (· + ·) (-0)

/-- The inner product of two column vectors. -/
def dot (a b : Matrix α) : Except (Error α) α := do
  a.requireColumn .dot
  if a.shape = b.shape then return sum (Array.zipWith (· * ·) a.data b.data)
  else throw (.mismatch .dot a.shape b.shape)

end Matrix

end InteriorPoint
