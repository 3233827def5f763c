import Mathlib
import InteriorPoint.Proofs.Matrix.Grid
import InteriorPoint.Proofs.Table

/-!
# Proofs/Table/Cells — loops over an array that holds a rectangle

`cells rows cols g` is the array with entry `g i j` in row `i` and column `j`.  A range of one row
is read from it and written over it (`part_eq`, `paste_cells`), single entries are written into it
(`write_cells`), and rows are appended to it (`cells_succ`); no lemma asks whether there are any
rows or columns.  What a loop leaves in the array is given for every index at which it may stand
(`foldlM_span`).
-/

namespace InteriorPoint.Table

/-- **A loop whose state is known at each of its indices.** -/
theorem foldlM_span {σ : Type} {f : σ → ℕ → Option σ} (state : ℕ → σ) {lo hi : ℕ} (hle : lo ≤ hi)
    (h : ∀ i, lo ≤ i → i < hi → f (state i) i = some (state (i + 1))) :
    (span lo hi).foldlM f (state lo) = some (state hi) := by
  obtain ⟨n, rfl⟩ := Nat.exists_eq_add_of_le hle
  rw [span, Nat.add_sub_cancel_left]
  clear hle
  induction n generalizing lo with
  | zero => rfl
  | succ n ih =>
    rw [List.range'_succ, List.foldlM_cons, h lo le_rfl (by omega)]
    have hnext : lo + (n + 1) = lo + 1 + n := by omega
    rw [hnext] at h ⊢
    exact ih fun i hlo hhi => h i (by omega) hhi

variable {α : Type}

/-! ## Rectangles -/

/-- **The entries of a rectangle**, row after row. -/
def cells (rows cols : ℕ) (g : ℕ → ℕ → α) : Array α := (Matrix.ofFn rows cols fun i j => g i j).data

section Cells

variable {rows cols : ℕ} {g : ℕ → ℕ → α} {i j : ℕ}

theorem size_cells (rows cols : ℕ) (g : ℕ → ℕ → α) : (cells rows cols g).size = rows * cols :=
  (Matrix.ofFn rows cols fun i j => g i j).size_eq

/-- **Reading an entry.** -/
theorem getElem?_cells (hi : i < rows) (hj : j < cols) :
    (cells rows cols g)[i * cols + j]? = some (g i j) := by
  rw [Array.getElem?_eq_getElem (size_cells rows cols g ▸ Matrix.place_lt hi hj)]
  exact congrArg some (Matrix.get_ofFn rows cols (fun i j => g i j) ⟨i, hi⟩ ⟨j, hj⟩)

/-- **An array is known by its entries.** -/
theorem eq_cells {a : Array α} (hsize : a.size = rows * cols)
    (h : ∀ i < rows, ∀ j < cols, a[i * cols + j]? = some (g i j)) : a = cells rows cols g := by
  have heq : (⟨rows, cols, a, hsize⟩ : Matrix α) = Matrix.ofFn rows cols fun i j => g i j := by
    refine Matrix.ext rfl rfl fun i j => Option.some.inj ?_
    refine Eq.trans (Array.getElem?_eq_getElem _).symm ((h i i.isLt j j.isLt).trans ?_)
    exact congrArg some (Matrix.get_ofFn rows cols (fun i j => g i j) i j).symm
  exact congrArg Matrix.data heq

theorem cells_congr {g' : ℕ → ℕ → α} (h : ∀ i < rows, ∀ j < cols, g i j = g' i j) :
    cells rows cols g = cells rows cols g' :=
  eq_cells (size_cells rows cols g) fun i hi j hj =>
    (getElem?_cells hi hj).trans (congrArg some (h i hi j hj))

theorem cells_zero (cols : ℕ) (g : ℕ → ℕ → α) : cells 0 cols g = #[] :=
  Array.eq_empty_of_size_eq_zero ((size_cells 0 cols g).trans (Nat.zero_mul cols))

theorem replicate_eq_cells (rows cols : ℕ) (v : α) :
    Array.replicate (rows * cols) v = cells rows cols fun _ _ => v :=
  eq_cells Array.size_replicate fun i hi j hj => by
    rw [Array.getElem?_replicate, if_pos (Matrix.place_lt hi hj)]

/-- **One more row.** -/
theorem cells_succ (rows cols : ℕ) (g : ℕ → ℕ → α) :
    cells (rows + 1) cols g = cells rows cols g ++ Array.ofFn fun j : Fin cols => g rows j := by
  have hsize := size_cells rows cols g
  refine (eq_cells ?_ fun i hi j hj => ?_).symm
  · rw [Array.size_append, hsize, Array.size_ofFn, Nat.succ_mul]
  · obtain hlt | rfl := Nat.lt_succ_iff_lt_or_eq.mp hi
    · rw [Array.getElem?_append_left (hsize ▸ Matrix.place_lt hlt hj), getElem?_cells hlt hj]
    · rw [Array.getElem?_append_right (by omega), hsize, Nat.add_sub_cancel_left,
        Array.getElem?_ofFn, dif_pos hj]

/-! ## Ranges of a row -/

/-- **Reading a range** whose members are known. -/
theorem part_eq {β : Type} {a : Array β} {lo n : ℕ} {x : ℕ → β} (hsize : lo + n ≤ a.size)
    (h : ∀ k < n, a[lo + k]? = some (x k)) :
    part a lo (lo + n) = some (Array.ofFn fun k : Fin n => x k) := by
  rw [part, if_pos ⟨Nat.le_add_right lo n, hsize⟩]
  refine congrArg some (Array.ext ?_ fun k hk hk' => Option.some.inj ?_)
  · rw [Array.size_extract, Array.size_ofFn]
    omega
  · have hlt : k < n := by simpa using hk'
    rw [Array.getElem_extract, Array.getElem_ofFn, ← h k hlt, Array.getElem?_eq_getElem (by omega)]

/-- A range of a row ends within the array, also if it is empty. -/
theorem range_le {col n : ℕ} (hi : i < rows) (hcol : col + n ≤ cols) :
    i * cols + col + n ≤ rows * cols :=
  calc i * cols + col + n ≤ i * cols + cols := by omega
    _ = (i + 1) * cols := (Nat.succ_mul i cols).symm
    _ ≤ rows * cols := Nat.mul_le_mul_right cols hi

/-- **Reading a range of a row.** -/
theorem part_cells {col n : ℕ} (hi : i < rows) (hcol : col + n ≤ cols) :
    part (cells rows cols g) (i * cols + col) (i * cols + col + n) =
      some (Array.ofFn fun k : Fin n => g i (col + k)) := by
  refine part_eq (x := fun k => g i (col + k)) ?_ fun k hk => ?_
  · rw [size_cells]
    exact range_le hi hcol
  · rw [Nat.add_assoc]
    exact getElem?_cells hi (by omega)

/-- Reading a whole row. -/
theorem part_row (hi : i < rows) :
    part (cells rows cols g) (i * cols) ((i + 1) * cols) =
      some (Array.ofFn fun k : Fin cols => g i k) := by
  have h : part (cells rows cols g) (i * cols + 0) (i * cols + 0 + cols) = _ :=
    part_cells hi (Nat.zero_add cols).le
  simpa only [Nat.add_zero, Nat.zero_add, ← Nat.succ_mul] using h

/-- A place lies in a range of row `i` if its entry does. -/
theorem place_mem_range {col n : ℕ} (i i' : ℕ) (hj : j < cols) (hcol : col + n ≤ cols) :
    (i * cols + col ≤ i' * cols + j ∧ i' * cols + j < i * cols + col + n) ↔
      i' = i ∧ col ≤ j ∧ j < col + n := by
  rcases lt_trichotomy i' i with hlt | rfl | hlt
  · have := Nat.mul_le_mul_right cols hlt
    rw [Nat.succ_mul] at this
    omega
  · omega
  · have := Nat.mul_le_mul_right cols hlt
    rw [Nat.succ_mul] at this
    omega

/-- **Writing over a range** changes the range and nothing else. -/
theorem exists_paste {β : Type} {a xs : Array β} {lo : ℕ} (h : lo + xs.size ≤ a.size) :
    ∃ b, paste a lo xs = some b ∧ b.size = a.size ∧
      ∀ k, b[k]? = if lo ≤ k ∧ k < lo + xs.size then xs[k - lo]? else a[k]? := by
  have hfront : (a.extract 0 lo).size = lo := by
    rw [Array.size_extract]
    omega
  have hboth : (a.extract 0 lo ++ xs).size = lo + xs.size := by rw [Array.size_append, hfront]
  refine ⟨_, if_pos h, ?_, fun k => ?_⟩
  · rw [Array.size_append, hboth, Array.size_extract, Nat.min_self]
    omega
  · by_cases hhi : k < lo + xs.size
    · rw [Array.getElem?_append_left (hboth ▸ hhi)]
      by_cases hlo : k < lo
      · rw [Array.getElem?_append_left (hlo.trans_eq hfront.symm), if_neg (by omega),
          Array.getElem?_extract, if_pos (by omega), Nat.zero_add]
      · rw [Array.getElem?_append_right (hfront.trans_le (not_lt.mp hlo)), hfront,
          if_pos ⟨not_lt.mp hlo, hhi⟩]
    · have hle : lo + xs.size ≤ k := not_lt.mp hhi
      rw [Array.getElem?_append_right (hboth ▸ hle), hboth, if_neg (by omega),
        Array.getElem?_extract, Nat.min_self, Nat.add_sub_of_le hle]
      by_cases hk : k < a.size
      · rw [if_pos (Nat.sub_lt_sub_right hle hk)]
      · rw [if_neg (by omega), Array.getElem?_eq_none (not_lt.mp hk)]

/-- **Writing over a range of a row.** -/
theorem paste_cells {col n : ℕ} (hi : i < rows) (hcol : col + n ≤ cols) (x : ℕ → α) :
    paste (cells rows cols g) (i * cols + col) (Array.ofFn fun k : Fin n => x k) =
      some (cells rows cols fun i' j =>
        if i' = i ∧ col ≤ j ∧ j < col + n then x (j - col) else g i' j) := by
  have hsize : (Array.ofFn fun k : Fin n => x k).size = n := Array.size_ofFn
  have hle : i * cols + col + n ≤ (cells rows cols g).size :=
    size_cells rows cols g ▸ range_le hi hcol
  obtain ⟨b, hb, hbsize, hget⟩ := exists_paste (hsize.symm ▸ hle)
  rw [hb]
  refine congrArg some (eq_cells (hbsize.trans (size_cells rows cols g)) fun i' hi' j hj => ?_)
  have hmem := place_mem_range i i' hj hcol
  rw [hget, hsize, getElem?_cells hi' hj]
  by_cases hin : i' = i ∧ col ≤ j ∧ j < col + n
  · have hk : i' * cols + j - (i * cols + col) = j - col := by
      rw [hin.1]
      omega
    rw [if_pos (hmem.mpr hin), if_pos hin, hk, Array.getElem?_ofFn, dif_pos (by omega)]
  · rw [if_neg (fun h => hin (hmem.mp h)), if_neg hin]

/-- **Writing an entry.** -/
theorem write_cells (hi : i < rows) (hj : j < cols) (v : α) :
    Buffer.write (cells rows cols g) (i * cols + j) v =
      some (cells rows cols fun i' j' => if i' = i ∧ j' = j then v else g i' j') := by
  have hlt : i * cols + j < (cells rows cols g).size :=
    size_cells rows cols g ▸ Matrix.place_lt hi hj
  rw [Buffer.write, dif_pos hlt]
  refine congrArg some (eq_cells ((Array.size_set hlt).trans (size_cells rows cols g)) ?_)
  intro i' hi' j' hj'
  have hmem := place_mem_range (n := 1) i i' hj' hj
  rw [Array.getElem?_set, getElem?_cells hi' hj', if_congr (by omega : _ ↔ i' = i ∧ j' = j) rfl rfl]
  split_ifs <;> rfl

/-- **A table made entry by entry** is read as it was made. -/
theorem fill_eq {f : ℕ → ℕ → Option α} (h : ∀ i < rows, ∀ j < cols, f i j = some (g i j)) :
    fill rows cols f = some ⟨rows, cols, cells rows cols g⟩ := by
  let push (r : ℕ) (data : Array α) (c : ℕ) : Option (Array α) := do return data.push (← f r c)
  have hrow : ∀ r, 0 ≤ r → r < rows →
      (span 0 cols).foldlM (push r) (cells r cols g) = some (cells (r + 1) cols g) := by
    intro r _ hr
    have hloop := foldlM_span (f := push r)
      (fun c => cells r cols g ++ Array.ofFn fun j : Fin c => g r j) (Nat.zero_le cols) ?_
    · rw [cells_succ, ← hloop]
      simp
    · intro c _ hc
      simp only [push, h r hr c hc]
      refine congrArg some ?_
      rw [Array.ofFn_succ, Array.append_push]
      rfl
  have hloop := foldlM_span (f := fun data r => (span 0 cols).foldlM (push r) data)
    (fun r => cells r cols g) (Nat.zero_le rows) hrow
  rw [cells_zero] at hloop
  rw [fill, hloop]
  rfl

end Cells

/-! ## The array of a matrix -/

section Matrices

variable [Scalar α] {m : Matrix α} {rows cols : ℕ} {g : ℕ → ℕ → α}

/-- **What a matrix stores**, if its entries are known. -/
theorem table_eq (hshape : m.shape = (rows, cols))
    (h : ∀ i < rows, ∀ j < cols, m.coeff i j = g i j) :
    m.table = ⟨rows, cols, cells rows cols g⟩ := by
  obtain ⟨rfl, rfl⟩ := Matrix.shape_eq_iff.mp hshape
  refine congrArg (Table.mk m.rows m.cols) (eq_cells m.size_eq fun i hi j hj => ?_)
  rw [← h i hi j hj, Matrix.coeff_of_lt hi hj]
  exact Array.getElem?_eq_getElem _

theorem data_eq_cells (m : Matrix α) : m.data = cells m.rows m.cols m.coeff :=
  congrArg Table.data (table_eq (m := m) rfl fun _ _ _ _ => rfl)

/-- An entry of a table that stores a matrix. -/
theorem get_table {i j : ℕ} (hshape : m.shape = (rows, cols)) (hi : i < rows) (hj : j < cols) :
    m.table.get i j = some (m.coeff i j) := by
  rw [table_eq hshape fun _ _ _ _ => rfl, get, if_pos ⟨hi, hj⟩, getElem?_cells hi hj]

end Matrices

end InteriorPoint.Table
