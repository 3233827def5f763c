import InteriorPoint.Matrix.Basic

/-!
# Factorization — elimination with row pivoting

`Elimination` is a square matrix under elimination, stored as its rows, with the order its rows have
been brought into.  One `step` per column moves the largest entry on or below the diagonal up and
subtracts multiples of its row from the rows below; the multipliers stay in the place of the entries
they cleared, so at the end the unit lower and the upper triangle are packed into one square.

`Factorization` is what a solver keeps between calls: the row order of the last square matrix, and
its packed triangles unless that matrix turned out singular.
-/

namespace InteriorPoint

variable {α : Type}

/-- **A square matrix under elimination.**  Row `i` of `rows` was row `order[i]` at the start. -/
structure Elimination (α : Type) (n : Nat) where
  rows : Vector (Vector α n) n
  order : Vector (Fin n) n

namespace Elimination

variable {n : Nat}

/-- The rows as they are given, in their own order. -/
def start (rows : Vector (Vector α n) n) : Elimination α n := ⟨rows, Vector.ofFn id⟩

/-- The rows below row `k`. -/
def below (k : Fin n) : List (Fin n) := (List.finRange n).filter (k < ·)

/-- The entry in row `i` and column `j`. -/
def entry (e : Elimination α n) (i j : Fin n) : α := (e.rows.get i).get j

/-- Exchanges two rows. -/
def swap (e : Elimination α n) (i j : Fin n) : Elimination α n :=
  ⟨e.rows.swap i j i.isLt j.isLt, e.order.swap i j i.isLt j.isLt⟩

/-- How far elimination came: to the end, or to a column without a pivot. -/
inductive Outcome (α : Type) (n : Nat) where
  | packed (e : Elimination α n)
  | singular (column : Fin n) (e : Elimination α n)

/-- The row order at which elimination stopped. -/
def Outcome.order : Outcome α n → Vector (Fin n) n
  | .packed e => e.order
  | .singular _ e => e.order

/-! ## One column after the other -/

variable [Scalar α]

/-- **The row with the largest entry in column `k`**, looking from row `k` down; of equal ones the
first. -/
def pivotRow (e : Elimination α n) (k : Fin n) : Fin n :=
  (below k).foldl
    (fun best i => if Scalar.abs (e.entry best k) < Scalar.abs (e.entry i k) then i else best) k

/-- A row below the pivot row `p` after elimination in column `k`: the multiplier takes the place of
the entry in that column, and the entries to its right lose the multiple of the pivot row. -/
def reduce (k : Fin n) (p r : Vector α n) : Vector α n :=
  let mult := r.get k / p.get k
  Vector.ofFn fun j => if j < k then r.get j else if j = k then mult else r.get j - mult * p.get j

/-- Clears column `k` below the diagonal. -/
def clear (e : Elimination α n) (k : Fin n) : Elimination α n :=
  let p := e.rows.get k
  { e with rows := Vector.ofFn fun i => if k < i then reduce k p (e.rows.get i) else e.rows.get i }

/-- **Elimination in column `k`**, or nothing if its pivot is zero. -/
def step (e : Elimination α n) (k : Fin n) : Option (Elimination α n) :=
  let i := e.pivotRow k
  if Scalar.abs (e.entry i k) == 0 then none else some ((e.swap k i).clear k)

/-- Eliminates in one column after the other. -/
def run (e : Elimination α n) : List (Fin n) → Outcome α n
  | [] => .packed e
  | k :: ks =>
    match e.step k with
    | none => .singular k e
    | some e => e.run ks

/-! ## Substitution -/

/-- Subtracts from `start` the products of `row` and `x` at the given places. -/
def subtractProducts (row x : Vector α n) (start : α) (places : List (Fin n)) : α :=
  places.foldl (fun acc j => acc - row.get j * x.get j) start

/-- Solves with the unit lower triangle, from the first row down. -/
def forward (e : Elimination α n) (b : Vector α n) : Vector α n :=
  (List.finRange n).foldl
    (fun (x : Vector α n) (i : Fin n) =>
      x.set i (subtractProducts (e.rows.get i) x (x.get i) ((List.finRange n).filter (· < i)))
        i.isLt) b

/-- Solves with the upper triangle, from the last row up. -/
def backward (e : Elimination α n) (b : Vector α n) : Vector α n :=
  (List.finRange n).reverse.foldl
    (fun (x : Vector α n) (i : Fin n) =>
      x.set i (subtractProducts (e.rows.get i) x (x.get i) (below i) / e.entry i i) i.isLt) b

/-- **Solves a linear system** from the packed triangles of its matrix. -/
def substitute (e : Elimination α n) (b : Vector α n) : Vector α n :=
  e.backward (e.forward (e.order.map b.get))

end Elimination

/-- **The factorization kept between calls**: the row order of the last square matrix of size `n`,
and its packed triangles, if elimination went through. -/
structure Factorization (α : Type) where
  n : Nat
  order : Vector (Fin n) n
  packed : Option (Elimination α n)

namespace Factorization

/-- Before any matrix was given. -/
def empty : Factorization α := ⟨0, #v[], none⟩

/-- The row order as numbers. -/
def permutation (f : Factorization α) : List Nat := f.order.toList.map Fin.val

variable [Scalar α]

/-- The outcome of elimination on a square matrix. -/
def eliminate (a : Matrix α) (h : a.cols = a.rows) : Elimination.Outcome α a.rows :=
  (Elimination.start
    (Vector.ofFn fun i => Vector.ofFn fun j : Fin a.rows => a.get i (j.cast h.symm))).run
      (List.finRange a.rows)

/-- **Factorizes a matrix.**  One that is not square is refused and changes nothing; a singular one
leaves its row order behind, but no triangles. -/
def factorize (f : Factorization α) (a : Matrix α) :
    Factorization α × Except (Error α) Unit :=
  if h : a.cols = a.rows then
    match eliminate a h with
    | .packed e => (⟨a.rows, e.order, some e⟩, .ok ())
    | .singular k e => (⟨a.rows, e.order, none⟩, .error (.singular k))
  else (f, .error (.mismatch .factorize a.shape (a.rows, a.rows)))

/-- **Solves with the triangles that are kept**, if there are any. -/
def solve (f : Factorization α) (b : Matrix α) : Except (Error α) (Matrix α) :=
  match f.packed with
  | none => .error (.mismatch .solve (0, 0) b.shape)
  | some e =>
    if h : b.cols = 1 ∧ b.rows = f.n then
      .ok (Matrix.column
        (e.substitute (Vector.ofFn fun i => b.entry h.1 (i.cast h.2.symm))).toArray)
    else .error (.mismatch .solve (f.n, f.n) b.shape)

end Factorization

/-- Factorizes `a` and solves `a x = b`. -/
def solveLinearSystem [Scalar α] (a b : Matrix α) : Except (Error α) (Matrix α) :=
  let (f, result) := Factorization.empty.factorize a
  result.bind fun () => f.solve b

end InteriorPoint
