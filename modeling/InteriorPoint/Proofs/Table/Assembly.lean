import Mathlib
import InteriorPoint.Proofs.Matrix.Block
import InteriorPoint.Proofs.Table.Operations

/-!
# Proofs/Table/Assembly — blocks are copied to their places within one array

The blocks of a grid are copied row by row into an array of zeros, each to the right of the blocks
before it and below the grid rows before its own (`copyBlock_cells`, `copyRow_cells`,
`copyGrid_cells`).  What stands in the array in the end is what is read by walking along the grid.
The checks that come first refuse exactly the layouts that cannot be assembled, with the error that
assembling them meets first (`failure?_checkRow`).
-/

namespace InteriorPoint.Table

/-! ## Copies -/

section Copies

variable {α : Type} [Scalar α] {rows total row col height : ℕ} {g : ℕ → ℕ → α}

/-- **A block in its place.** -/
theorem copyBlock_cells {m : Matrix α} (hrow : row + m.rows ≤ rows) (hcol : col + m.cols ≤ total) :
    copyBlock total row col m.table (cells rows total g) = some (cells rows total fun i j =>
      if (row ≤ i ∧ i < row + m.rows) ∧ col ≤ j ∧ j < col + m.cols then
        m.coeff (i - row) (j - col) else g i j) := by
  let state (n i j : ℕ) : α :=
    if (row ≤ i ∧ i < row + n) ∧ col ≤ j ∧ j < col + m.cols then m.coeff (i - row) (j - col)
    else g i j
  have hstart : cells rows total g = cells rows total (state 0) :=
    cells_congr fun i _ j _ => (if_neg (by omega)).symm
  rw [copyBlock, Matrix.rows_table, hstart]
  refine foldlM_span (fun n => cells rows total (state n)) (Nat.zero_le m.rows) fun r _ hr => ?_
  have hread : part m.data (r * m.cols) ((r + 1) * m.cols) =
      some (Array.ofFn fun j : Fin m.cols => m.coeff r j) := by
    rw [data_eq_cells]
    exact part_row hr
  rw [Matrix.data_table, Matrix.cols_table, hread]
  refine (paste_cells (by omega) hcol (m.coeff r)).trans (congrArg some ?_)
  refine cells_congr fun i _ j _ => ite_done (by omega) fun hnow => ?_
  rw [hnow.1, Nat.add_sub_cancel_left]

omit [Scalar α] in
theorem gridWidth_map_table (ms : List (Matrix α)) :
    gridWidth (ms.map Matrix.table) = Matrix.gridWidth ms := by
  rw [gridWidth, Matrix.gridWidth, List.map_map]
  rfl

omit [Scalar α] in
theorem gridHeight_map_table (ms : List (Matrix α)) :
    gridHeight (ms.map Matrix.table) = Matrix.gridHeight ms := by
  rw [gridHeight, Matrix.gridHeight, List.head?_map, Option.map_map]
  rfl

/-- **Blocks beside each other.** -/
theorem copyRow_cells {ms : List (Matrix α)} (hms : ∀ m ∈ ms, m.rows = height)
    (hrow : row + height ≤ rows) (hcol : col + Matrix.gridWidth ms ≤ total) :
    copyRow total row (ms.map Matrix.table) col (cells rows total g) =
      some (cells rows total fun i j =>
        if (row ≤ i ∧ i < row + height) ∧ col ≤ j ∧ j < col + Matrix.gridWidth ms then
          Matrix.besideCoeff ms (i - row) (j - col) else g i j) := by
  induction ms generalizing col g with
  | nil =>
    have hwidth : Matrix.gridWidth ([] : List (Matrix α)) = 0 := rfl
    refine congrArg some (cells_congr fun i _ j _ => (if_neg ?_).symm)
    omega
  | cons m ms ih =>
    have hwidth : Matrix.gridWidth (m :: ms) = m.cols + Matrix.gridWidth ms := rfl
    obtain ⟨hm, hms⟩ := List.forall_mem_cons.mp hms
    rw [List.map_cons, copyRow, Matrix.cols_table,
      copyBlock_cells (by omega : row + m.rows ≤ rows) (by omega), hm]
    refine (ih hms (by omega)).trans (congrArg some (cells_congr fun i _ j _ => ?_))
    rw [Matrix.besideCoeff]
    by_cases hj : j < col + m.cols
    · rw [if_neg (by omega)]
      by_cases hin : (row ≤ i ∧ i < row + height) ∧ col ≤ j ∧ j < col + m.cols
      · rw [if_pos hin, if_pos (by omega), if_pos (by omega)]
      · rw [if_neg hin, if_neg (by omega)]
    · rw [if_neg (by omega : ¬j - col < m.cols), Nat.sub_sub]
      by_cases hin : (row ≤ i ∧ i < row + height) ∧ col ≤ j ∧ j < col + Matrix.gridWidth (m :: ms)
      · rw [if_pos hin, if_pos (by omega)]
      · rw [if_neg hin, if_neg (by omega), if_neg (by omega)]

/-- **Grid rows above each other.** -/
theorem copyGrid_cells {layout : List (List (Matrix α))} {rs : List (Matrix α)}
    (hrs : List.Forall₂ (fun blocks r => r.IsRowOf blocks) layout rs)
    (hfits : ∀ blocks ∈ layout, Matrix.RowFits total blocks)
    (hrow : row + (rs.map Matrix.rows).sum ≤ rows) :
    copyGrid total (layout.map (List.map Matrix.table)) row (cells rows total g) =
      some (cells rows total fun i j =>
        if row ≤ i ∧ i < row + (rs.map Matrix.rows).sum then
          Matrix.aboveCoeff rs (i - row) j else g i j) := by
  induction hrs generalizing row g with
  | nil => exact congrArg some (cells_congr fun i _ j _ => (if_neg (by simp)).symm)
  | @cons blocks r layout rs hr _ ih =>
    obtain ⟨⟨hwidth, hheights⟩, hfits⟩ := List.forall_mem_cons.mp hfits
    have hheight : r.rows = Matrix.gridHeight blocks := (Matrix.shape_eq_iff.mp hr.1).1
    rw [List.map_cons, List.sum_cons] at hrow
    rw [List.map_cons, copyGrid, gridHeight_map_table, List.map_cons, List.sum_cons, ← hheight,
      copyRow_cells (hheight ▸ hheights) (by omega) (by omega)]
    refine (ih hfits (by omega)).trans (congrArg some (cells_congr fun i _ j hj => ?_))
    rw [Matrix.aboveCoeff, hr.2, Nat.sub_zero]
    by_cases hi : i < row + r.rows
    · rw [if_neg (by omega)]
      by_cases hlo : row ≤ i
      · rw [if_pos (by omega), if_pos (by omega), if_pos (by omega)]
      · rw [if_neg (by omega), if_neg (by omega)]
    · rw [if_neg (by omega : ¬i - row < r.rows), Nat.sub_sub]
      by_cases hhi : i < row + (r.rows + (rs.map Matrix.rows).sum)
      · rw [if_pos (by omega), if_pos (by omega)]
      · rw [if_neg (by omega), if_neg (by omega), if_neg (by omega)]

end Copies

/-! ## Checks -/

section Checks

variable {α : Type}

/-- A block of another height is refused when it is put beside the others. -/
theorem failure?_foldlM_placeBeside {height : ℕ} (ms : List (Matrix α)) (acc : Matrix α)
    (hacc : acc.rows = height) : failure? (ms.foldlM Matrix.placeBeside acc) =
      (ms.find? (·.rows ≠ height)).map fun m => .mismatch .block m.shape (height, m.cols) := by
  obtain rfl := hacc
  induction ms generalizing acc with
  | nil => rfl
  | cons m ms ih =>
    rw [List.foldlM_cons, Matrix.placeBeside, List.find?_cons]
    by_cases hfit : acc.rows = m.rows
    · rw [dif_pos hfit, decide_eq_false (not_not.mpr hfit.symm)]
      exact ih (acc.beside m hfit)
    · rw [dif_neg hfit, decide_eq_true (Ne.symm hfit)]
      rfl

/-- **A grid row is refused as it is when it is put together.** -/
theorem failure?_checkRow (total : ℕ) (blocks : List (Matrix α)) :
    failure? (checkRow total (blocks.map Matrix.table)) =
      failure? (Matrix.gridRow total blocks) := by
  rw [checkRow, Matrix.gridRow, gridWidth_map_table, gridHeight_map_table]
  generalize Matrix.gridHeight blocks = height
  have hfind : (blocks.map Matrix.table).find? (·.rows ≠ height) =
      (blocks.find? (·.rows ≠ height)).map Matrix.table := List.find?_map
  have hheight : (Matrix.noCols height : Matrix α).rows = height := rfl
  have hbeside := failure?_foldlM_placeBeside blocks (Matrix.noCols height) hheight
  by_cases hwidth : Matrix.gridWidth blocks = total
  · rw [if_pos hwidth, if_neg (not_not.mpr hwidth), hfind]
    refine Eq.trans ?_ hbeside.symm
    generalize blocks.find? (·.rows ≠ height) = found
    rcases found with _ | m
    · rfl
    · rfl
  · rw [if_neg hwidth, if_pos hwidth]
    rfl

/-- **All grid rows are refused as they are when they are put together.** -/
theorem failure?_checkRows (total : ℕ) (layout : List (List (Matrix α))) :
    failure? ((layout.map (List.map Matrix.table)).forM (checkRow total)) =
      failure? (layout.mapM (Matrix.gridRow total)) := by
  rw [failure?_forM, failure?_mapM, List.findSome?_map]
  exact congrArg (List.findSome? · layout) (funext (failure?_checkRow total))

end Checks

/-- **A grid of blocks is assembled in one array**, and any other layout is refused with the same
error. -/
theorem follows_block {α : Type} [Scalar α] (layout : List (List (Matrix α))) :
    Follows Matrix.table (block (layout.map (List.map Matrix.table))) (Matrix.block layout) := by
  rcases layout with _ | ⟨first, rest⟩
  · exact follows_error _
  have hchecks := failure?_checkRows (Matrix.gridWidth first) (first :: rest)
  rw [List.map_cons, block, ← List.map_cons, gridWidth_map_table]
  by_cases hgrid : Matrix.IsGrid (first :: rest)
  · obtain ⟨m, hm, rs, hrs, hshape, hcoeff⟩ := hgrid.exists_block
    rw [failure?_eq_none.mpr (Matrix.exists_mapM_gridRow_iff.mpr hgrid)] at hchecks
    obtain ⟨⟨⟩, hok⟩ := failure?_eq_none.mp hchecks
    have hrows : ((first :: rest).map (List.map Matrix.table)).map gridHeight =
        rs.map Matrix.rows := by
      rw [List.map_map]
      refine map_eq_of_forall₂ (hrs.imp fun blocks r hr => ?_)
      exact (gridHeight_map_table blocks).trans (Matrix.shape_eq_iff.mp hr.1).1.symm
    have hcopy := (copyGrid_cells (g := fun _ _ => (0 : α)) hrs
      (Matrix.isGrid_cons_iff.mp hgrid) (Nat.zero_add _).le).trans
      (congrArg some (cells_congr fun i hi j _ => if_pos ⟨Nat.zero_le i, by omega⟩))
    have htable := table_eq (hshape first List.mem_cons_self) fun i _ j _ => hcoeff i j
    simp only [hrows, replicate_eq_cells]
    rw [hok, hm]
    change Follows Matrix.table (within _ >>= _) _
    rw [within_bind hcopy, filled, if_pos (size_cells ..)]
    exact follows_table htable
  · rcases hrs : (first :: rest).mapM (Matrix.gridRow (Matrix.gridWidth first)) with err | rs
    · rw [hrs, failure?, failure?_eq_some] at hchecks
      rw [hchecks, Matrix.block, hrs]
      exact follows_error err
    · exact absurd (Matrix.exists_mapM_gridRow_iff.mp ⟨rs, hrs⟩) hgrid

end InteriorPoint.Table
