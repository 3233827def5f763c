import Mathlib
import InteriorPoint.Proofs.Table.Assembly
import InteriorPoint.Proofs.Table.Derived

/-!
# Proofs/Table/History — every matrix that is ever made fills its shape

A `Matrix.Call` is one of the operations that make a matrix, with its arguments; those that are
matrices are named by the numbers of earlier results.  A list of calls is run on matrices, which
fill their shapes by construction, and on tables, which promise nothing and whose loops look up
every index:

    results of calls on matrices ──table──▸ results of calls on tables

The two stay in step, call by call (`step_table`), so no index is ever out of range and every table
that is made is one that a matrix stores.  Sizes are unbounded here, as those of a machine are for
as long as none overflows; entries that come with their shape are counted before they are compared.

* `history_sound` — what holds of all results of all lists of calls.
-/

namespace InteriorPoint

/-- **A call of an operation that makes a matrix.**  Matrices among its arguments are named by
`ρ`. -/
inductive Matrix.Call (α ρ : Type) where
  | new (rows cols : ℕ) (data : Array α)
  | column (data : Array α)
  | row (data : Array α)
  | ofFn (rows cols : ℕ) (f : ℕ → ℕ → α)
  | zeros (rows cols : ℕ)
  | identity (n : ℕ)
  | ones (n : ℕ)
  | diag (v : ρ)
  | stackColumns (vs : List ρ)
  | stack (ms : List ρ)
  | block (layout : List (List ρ))
  | add (a b : ρ)
  | subtract (a b : ρ)
  | multiply (a b : ρ)
  | hadamard (a b : ρ)
  | scale (m : ρ) (factor : α)
  | transpose (m : ρ)
  | slice (m : ρ) (row col rows cols : ℕ)
  | solve (a b : ρ)
  | update (s y q : ρ)
  | jacobian (f : DualMap α) (x : ρ)
  | gradient (f : DualFunction α) (x : ρ)
  | read (w : Wire α)

namespace Matrix.Call

variable {α ρ : Type} [Scalar α]

/-- What a call makes of matrices, if it is not refused. -/
def onMatrices (m : ρ → Matrix α) : Call α ρ → Option (Matrix α)
  | .new rows cols data => (Matrix.ofData rows cols data).toOption
  | .column data => some (.column data)
  | .row data => some (.row data)
  | .ofFn rows cols f => some (.ofFn rows cols fun i j => f i j)
  | .zeros rows cols => some (.zeros rows cols)
  | .identity n => some (.identity n)
  | .ones n => some (.ones n)
  | .diag v => (m v).diag.toOption
  | .stackColumns vs => (Matrix.stackColumns (vs.map m)).toOption
  | .stack ms => (Matrix.stack (ms.map m)).toOption
  | .block layout => (Matrix.block (layout.map (List.map m))).toOption
  | .add a b => ((m a).add (m b)).toOption
  | .subtract a b => ((m a).subtract (m b)).toOption
  | .multiply a b => ((m a).multiply (m b)).toOption
  | .hadamard a b => ((m a).hadamard (m b)).toOption
  | .scale a factor => some ((m a).scale factor)
  | .transpose a => some (m a).transpose
  | .slice a i j rows cols => ((m a).slice i j rows cols).toOption
  | .solve a b => (solveLinearSystem (m a) (m b)).toOption
  | .update s y q => (Curvature.update (m s) (m y) (m q)).toOption
  | .jacobian f x => (f.jacobian (m x)).toOption
  | .gradient f x => (f.gradient (m x)).toOption
  | .read w => (Matrix.ofWire? w).bind Except.toOption

/-- What a computation on tables makes, if it is not refused. -/
def made (t : Table.Computation α (Table α)) : Option (Option (Table α)) :=
  t.run.map Except.toOption

/-- **What a call makes of tables**, if it is not refused, unless an index is out of range. -/
def onTables (t : ρ → Table α) : Call α ρ → Option (Option (Table α))
  | .new rows cols data => made (Table.new rows cols data)
  | .column data => some (some (.column data))
  | .row data => some (some (.row data))
  | .ofFn rows cols f => (Table.fill rows cols fun i j => some (f i j)).map some
  | .zeros rows cols => some (some (.zeros rows cols))
  | .identity n => (Table.identity n).map some
  | .ones n => some (some (.ones n))
  | .diag v => made (t v).diag
  | .stackColumns vs => made (Table.stackColumns (vs.map t))
  | .stack ms => made (Table.stack (ms.map t))
  | .block layout => made (Table.block (layout.map (List.map t)))
  | .add a b => made ((t a).add (t b))
  | .subtract a b => made ((t a).subtract (t b))
  | .multiply a b => made ((t a).multiply (t b))
  | .hadamard a b => made ((t a).hadamard (t b))
  | .scale a factor => some (some ((t a).scale factor))
  | .transpose a => (t a).transpose.map some
  | .slice a i j rows cols => made ((t a).slice i j rows cols)
  | .solve a b => made ((t a).solve (t b))
  | .update s y q => made (Table.update (t s) (t y) (t q))
  | .jacobian f x => made (Table.jacobian f (t x))
  | .gradient f x => made (Table.gradient f (t x))
  | .read w =>
    match Table.ofWire? w with
    | none => some none
    | some t => made (Table.new t.rows t.cols t.data)

omit [Scalar α] in
theorem made_of_follows {t : Table.Computation α (Table α)} {r : Except (Error α) (Matrix α)}
    (h : Table.Follows Matrix.table t r) : made t = some (r.toOption.map Matrix.table) := by
  rw [made, h]
  rcases r with err | m
  · rfl
  · rfl

/-- **A call on tables that store matrices** uses no index out of range and makes what the call on
the matrices makes. -/
theorem onTables_table (m : ρ → Matrix α) (c : Call α ρ) :
    c.onTables (fun r => (m r).table) = some ((c.onMatrices m).map Matrix.table) := by
  cases c with
  | new rows cols data => exact made_of_follows (Table.follows_new rows cols data)
  | column data => rfl
  | row data => rfl
  | ofFn rows cols f => exact congrArg (Option.map some) (Table.fill_table fun _ _ => rfl)
  | zeros rows cols => exact congrArg (some ∘ some) (Table.table_zeros rows cols).symm
  | identity n => exact congrArg (Option.map some) (Table.identity_table n)
  | ones n => exact congrArg (some ∘ some) (Table.table_ones n).symm
  | diag v => exact made_of_follows (Table.follows_diag (m v))
  | stackColumns vs =>
    refine made_of_follows ?_
    have h := Table.follows_stackColumns (vs.map m)
    rwa [List.map_map] at h
  | stack ms =>
    refine made_of_follows ?_
    have h := Table.follows_stack (ms.map m)
    rwa [List.map_map] at h
  | block layout =>
    refine made_of_follows ?_
    have h := Table.follows_block (layout.map (List.map m))
    rwa [List.map_map, List.map_comp_map] at h
  | add a b => exact made_of_follows (Table.follows_zipWith .add (· + ·) (m a) (m b))
  | subtract a b => exact made_of_follows (Table.follows_zipWith .subtract (· - ·) (m a) (m b))
  | multiply a b => exact made_of_follows (Table.follows_multiply (m a) (m b))
  | hadamard a b => exact made_of_follows (Table.follows_hadamard (m a) (m b))
  | scale a factor => rfl
  | transpose a => exact congrArg (Option.map some) (Table.transpose_table (m a))
  | slice a i j rows cols => exact made_of_follows (Table.follows_slice (m a) i j rows cols)
  | solve a b => exact made_of_follows (Table.follows_solve (m a) (m b))
  | update s y q => exact made_of_follows (Table.follows_update (m s) (m y) (m q))
  | jacobian f x => exact made_of_follows (Table.follows_jacobian f (m x))
  | gradient f x => exact made_of_follows (Table.follows_gradient f (m x))
  | read w =>
    rw [onMatrices, Table.ofWire?_matrix, onTables]
    rcases Table.ofWire? w with _ | t
    · rfl
    · exact made_of_follows (Table.follows_new t.rows t.cols t.data)

end Matrix.Call

/-! ## One call after the other -/

section History

variable {α : Type} [Scalar α]

/-- One more call on matrices: its result, if there is one, gets the next number.  A number without
a result stands for the matrix without entries. -/
def Matrix.step (ms : List (Matrix α)) (c : Matrix.Call α ℕ) : List (Matrix α) :=
  ms ++ (c.onMatrices fun i => ms.getD i (.noRows 0)).toList

/-- The results of calls on matrices. -/
def Matrix.history (calls : List (Matrix.Call α ℕ)) : List (Matrix α) := calls.foldl step []

/-- One more call on tables. -/
def Table.step (ts : List (Table α)) (c : Matrix.Call α ℕ) : Option (List (Table α)) := do
  return ts ++ (← c.onTables fun i => ts.getD i ⟨0, 0, #[]⟩).toList

/-- **The results of calls on tables**, unless an index is out of range. -/
def Table.history (calls : List (Matrix.Call α ℕ)) : Option (List (Table α)) := calls.foldlM step []

namespace Table

/-- **A call keeps tables and matrices in step.** -/
theorem step_table (ms : List (Matrix α)) (c : Matrix.Call α ℕ) :
    step (ms.map Matrix.table) c = some ((Matrix.step ms c).map Matrix.table) := by
  have hargs : (fun i => (ms.map Matrix.table).getD i ⟨0, 0, #[]⟩) =
      fun i => (ms.getD i (.noRows 0)).table :=
    funext fun _ => List.getD_map ms (.noRows 0) Matrix.table
  rw [step, hargs, Matrix.Call.onTables_table, Matrix.step, List.map_append]
  rcases c.onMatrices fun i => ms.getD i (.noRows 0) with _ | m
  · rfl
  · rfl

/-- …and so do all of them. -/
theorem history_table (calls : List (Matrix.Call α ℕ)) :
    history calls = some ((Matrix.history calls).map Matrix.table) := by
  suffices hgo : ∀ ms : List (Matrix α), calls.foldlM step (ms.map Matrix.table) =
      some ((calls.foldl Matrix.step ms).map Matrix.table) from hgo []
  induction calls with
  | nil => exact fun _ => rfl
  | cons c calls ih =>
    intro ms
    rw [List.foldlM_cons, step_table]
    exact ih (Matrix.step ms c)

/-- An entry is missing exactly outside of the shape. -/
theorem get_table_eq_none {m : Matrix α} {i j : ℕ} :
    m.table.get i j = none ↔ m.rows ≤ i ∨ m.cols ≤ j := by
  by_cases hij : i < m.rows ∧ j < m.cols
  · rw [get_table rfl hij.1 hij.2]
    exact iff_of_false nofun (by omega)
  · exact iff_of_true (if_neg hij) (by omega)

/-- **Every matrix that is ever made fills its shape**, whatever is called in whatever order on
earlier results.  Carried out on arrays that promise nothing, all the calls find every index in
range and make what they make of matrices; what they make has as many entries as its shape asks for,
and an entry is refused exactly outside of the shape. -/
theorem history_sound (calls : List (Matrix.Call α ℕ)) :
    ∃ ts, history calls = some ts ∧ ts = (Matrix.history calls).map Matrix.table ∧
      ∀ t ∈ ts, t.data.size = t.rows * t.cols ∧
        ∀ i j, t.get i j = none ↔ t.rows ≤ i ∨ t.cols ≤ j := by
  refine ⟨_, history_table calls, rfl, fun t ht => ?_⟩
  obtain ⟨m, _, rfl⟩ := List.mem_map.mp ht
  exact ⟨m.size_eq, fun i j => get_table_eq_none⟩

/-- A matrix without rows is transposed and multiplied by itself, beside what has no columns; what
does not fit is refused and gets no number. -/
example : (Matrix.history [.new 0 2 #[], .transpose 0, .multiply 1 0, .add 0 1,
    .block [[1, 2], [0]], .slice 3 2 2 0 0, .new 2 2 #[(1 : ℚ)],
    .stack [0, 2, 4]]).map Matrix.shape = [(0, 2), (2, 0), (2, 2), (2, 2), (0, 0)] := by decide

end Table

end History

end InteriorPoint
