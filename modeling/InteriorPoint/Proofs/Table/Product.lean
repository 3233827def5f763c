import Mathlib
import InteriorPoint.Proofs.Double
import InteriorPoint.Proofs.Table.Operations

/-!
# Proofs/Table/Product — the loop of the matrix product adds up every entry in order

The loop goes through the rows of the left factor, and for each of them through its entries; every
entry adds a multiple of a whole row of the right factor to a whole row of the result.  Seen from
one entry of the result, the products of a row and a column arrive one after the other, from the
left: after `k` rounds it is the sum of the first `k` of them (`partialSum`), with no sum of two
products taken before.  Nothing is assumed of the arithmetic, so rounding takes place where the
definition has it.

* `multiply_entrywise` — the product is its definition, and transposing it exchanges the factors.
-/

namespace InteriorPoint

namespace Matrix

variable {α : Type} [Scalar α] {a b : Matrix α} {n i j : ℕ}

/-- **The product by its definition**: an entry is what is left after adding, from zero on, the
products of a row of `a` and a column of `b` in their order. -/
def product (a b : Matrix α) (h : a.cols = b.rows) : Matrix α :=
  ofFn a.rows b.cols fun r c =>
    (List.finRange a.cols).foldl (fun acc k => acc + a.get r k * b.get (k.cast h) c) 0

/-- The first `n` products of row `i` and column `j`, added up from the left. -/
def partialSum (a b : Matrix α) (n i j : ℕ) : α :=
  (List.range n).foldl (fun sum k => sum + a.coeff i k * b.coeff k j) 0

theorem partialSum_succ (a b : Matrix α) (n i j : ℕ) :
    partialSum a b (n + 1) i j = partialSum a b n i j + a.coeff i n * b.coeff n j := by
  rw [partialSum, List.range_succ, List.foldl_append]
  rfl

theorem coeff_product (h : a.cols = b.rows) (hi : i < a.rows) (hj : j < b.cols) :
    (product a b h).coeff i j = partialSum a b a.cols i j := by
  rw [product, coeff_ofFn hi hj, partialSum, ← List.map_coe_finRange_eq_range, List.foldl_map]
  refine List.foldl_ext _ _ _ fun sum k _ => ?_
  rw [coeff_of_lt hi k.isLt, coeff_of_lt (h ▸ k.isLt) hj]
  rfl

theorem mul_eq_product (h : a.cols = b.rows) : mul a b h = product a b h :=
  congrArg (ofFn a.rows b.cols)
    (funext₂ fun i j => (get_ofFn ..).symm.trans (get_mul a b h i j))

theorem multiply_eq_product (h : a.cols = b.rows) : a.multiply b = .ok (product a b h) :=
  (dif_pos h).trans (congrArg Except.ok (mul_eq_product h))

/-! ## Across the diagonal -/

omit [Scalar α] in
/-- **Transposing exchanges rows and columns.** -/
theorem get?_transpose (m : Matrix α) (i j : ℕ) : m.transpose.get? j i = m.get? i j := by
  rw [transpose, get?_ofFn, get?]
  exact dite_congr (by rw [and_comm]) (fun _ => rfl) fun _ => rfl

omit [Scalar α] in
theorem transpose_transpose (m : Matrix α) : m.transpose.transpose = m :=
  ext rfl rfl fun _ _ => (get_transpose ..).trans (get_transpose ..)

/-- If multiplication is commutative, an entry of a product is computed as the entry of the
transposed factors across the diagonal is. -/
theorem transpose_product (hmul : ∀ x y : α, x * y = y * x) (h : a.cols = b.rows) :
    (product a b h).transpose = product b.transpose a.transpose h.symm := by
  obtain ⟨rows, inner, dataA, hsizeA⟩ := a
  obtain ⟨rowsB, cols, dataB, hsizeB⟩ := b
  change inner = rowsB at h
  subst h
  refine congrArg (ofFn cols rows) (funext₂ fun i j => (get_ofFn ..).trans ?_)
  refine List.foldl_ext _ _ _ fun sum k _ => ?_
  rw [hmul]
  exact congrArg (sum + ·) (congrArg₂ (· * ·) (get_transpose ..).symm (get_transpose ..).symm)

end Matrix

namespace Table

variable {α : Type} [Scalar α] {a b : Matrix α}

/-! ## One row -/

/-- **A round** adds one product to each of the sums of a row. -/
theorem addMultiple_eq {r k : ℕ} (hk : k < a.cols) (hb : k < b.rows) :
    addMultiple b.table (Array.ofFn fun k : Fin a.cols => a.coeff r k)
        (Array.ofFn fun j : Fin b.cols => Matrix.partialSum a b k r j) k =
      some (Array.ofFn fun j : Fin b.cols => Matrix.partialSum a b (k + 1) r j) := by
  rw [addMultiple, Array.getElem?_ofFn, dif_pos hk, Matrix.data_table, Matrix.cols_table,
    data_eq_cells b, part_row hb]
  refine congrArg some (Array.ext (by simp) fun j hj hj' => ?_)
  simp [Matrix.partialSum_succ]

/-- **A row of the product** takes the place of a row of zeros. -/
theorem productRow_eq (h : a.cols = b.rows) {r : ℕ} (hr : r < a.rows) :
    productRow a.table b.table (cells a.rows b.cols fun i j =>
        if i < r then Matrix.partialSum a b a.cols i j else 0) r =
      some (cells a.rows b.cols fun i j =>
        if i < r + 1 then Matrix.partialSum a b a.cols i j else 0) := by
  have hleft : part a.data (r * a.cols) ((r + 1) * a.cols) =
      some (Array.ofFn fun k : Fin a.cols => a.coeff r k) := by
    rw [data_eq_cells a]
    exact part_row hr
  have hloop := foldlM_span
    (f := addMultiple b.table (Array.ofFn fun k : Fin a.cols => a.coeff r k))
    (fun k => Array.ofFn fun j : Fin b.cols => Matrix.partialSum a b k r j)
    (Nat.zero_le a.cols) fun k _ hk => addMultiple_eq hk (h ▸ hk)
  have hstart : part (cells a.rows b.cols fun i j =>
      if i < r then Matrix.partialSum a b a.cols i j else 0) (r * b.cols) ((r + 1) * b.cols) =
      some (Array.ofFn fun j : Fin b.cols => Matrix.partialSum a b 0 r j) := by
    rw [part_row hr]
    simp only [lt_irrefl, if_false]
    rfl
  rw [productRow, Matrix.data_table, Matrix.cols_table, Matrix.cols_table, hleft]
  simp only [Option.bind_eq_bind, Option.bind_some, hstart, Array.size_ofFn, hloop]
  have hpaste := paste_cells (g := fun i j => if i < r then Matrix.partialSum a b a.cols i j else 0)
    hr (Nat.zero_add b.cols).le (Matrix.partialSum a b a.cols r)
  rw [Nat.add_zero] at hpaste
  rw [hpaste]
  refine congrArg some (cells_congr fun i _ j hj => ?_)
  exact ite_done (by omega) fun hnow => by rw [hnow.1, Nat.sub_zero]

/-- **The product in one array.** -/
theorem follows_multiply (a b : Matrix α) :
    Follows Matrix.table (multiply a.table b.table) (a.multiply b) := by
  refine follows_dite (q := a.cols = b.rows) Iff.rfl fun h => ?_
  have hloop := foldlM_span (f := productRow a.table b.table)
    (fun r => cells a.rows b.cols fun i j =>
      if i < r then Matrix.partialSum a b a.cols i j else 0)
    (Nat.zero_le a.rows) fun r _ hr => productRow_eq h hr
  simp only [Nat.not_lt_zero, if_false, ← replicate_eq_cells] at hloop
  rw [Matrix.rows_table, Matrix.cols_table, within_bind hloop, Matrix.mul_eq_product h]
  refine follows_table (table_eq rfl fun i hi j hj => ?_)
  exact (Matrix.coeff_product h hi hj).trans (if_pos hi).symm

end Table

/-! ## The product -/

namespace Matrix

/-- **The matrix product is its definition**, in any arithmetic.  For factors that fit, the result
has in every place the sum of the products of a row and a column, added up from the left and
starting from zero, and the loop over rows in one array finds the same, without an index out of
range.  Transposing exchanges rows and columns and is undone by transposing again; so if
multiplication is commutative, the transposed product is, to the last bit, the product of the
transposed factors in the other order. -/
theorem multiply_entrywise {α : Type} [Scalar α] (a b : Matrix α) (h : a.cols = b.rows) :
    a.multiply b = .ok (product a b h) ∧
    (Table.multiply a.table b.table).run = some (.ok (product a b h).table) ∧
    (∀ m : Matrix α, m.transpose.transpose = m ∧ m.transpose.shape = (m.cols, m.rows) ∧
      (∀ i j, m.transpose.get? j i = m.get? i j) ∧
      Table.transpose m.table = some m.transpose.table) ∧
    ((∀ x y : α, x * y = y * x) →
      b.transpose.multiply a.transpose = .ok (product a b h).transpose) := by
  have hproduct := multiply_eq_product h
  refine ⟨hproduct, ?_, fun m => ?_, fun hmul => ?_⟩
  · rw [Table.follows_multiply a b, hproduct]
    rfl
  · exact ⟨transpose_transpose m, rfl, get?_transpose m, Table.transpose_table m⟩
  · rw [transpose_product hmul h]
    exact multiply_eq_product (a := b.transpose) (b := a.transpose) h.symm

/-- Two rows with the same entries in another order, the small one between the large ones or after
them. -/
def cancelling : Matrix Float := ⟨2, 3, #[1e16, 1, -1e16, 1e16, -1e16, 1], rfl⟩

/-- The small entry is rounded away if it is added before the large ones cancel.  The transposed
product has the same two sums. -/
theorem multiply_entrywise_cancelling :
    cancelling.cols = (ones 3 : Matrix Float).rows ∧ (∀ x y : Float, x * y = y * x) ∧
    ∃ c, cancelling.multiply (ones 3) = .ok c ∧ c.get? 0 0 = some 0 ∧ c.get? 1 0 = some 1 ∧
      (ones 3).transpose.multiply cancelling.transpose = .ok c.transpose ∧
      c.transpose.get? 0 1 = some 1 := by
  obtain ⟨hproduct, _, htranspose, hcomm⟩ := multiply_entrywise cancelling (ones 3) rfl
  have hfirst : (product cancelling (ones 3) rfl).get? 0 0 = some 0 := by decide +kernel
  have hsecond : (product cancelling (ones 3) rfl).get? 1 0 = some 1 := by decide +kernel
  refine ⟨rfl, Double.mul_comm, _, hproduct, hfirst, hsecond, hcomm Double.mul_comm, ?_⟩
  obtain ⟨_, _, hget, _⟩ := htranspose (product cancelling (ones 3) rfl)
  exact (hget 1 0).trans hsecond

end Matrix

end InteriorPoint
