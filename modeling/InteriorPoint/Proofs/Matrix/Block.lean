import Mathlib
import InteriorPoint.Proofs.Matrix.Grid

/-!
# Proofs/Matrix/Block — a matrix assembled from blocks gives every block back

Grid rows may be cut at different columns, and blocks may be empty, so a block begins below the
heights of the grid rows before its own and to the right of the widths of the blocks before it in
its own grid row (`rowOffset`, `colOffset`).  The places below a sum of sizes are shared out among
the parts, each place to one of them (`existsUnique_part`); that is used for the rows of a matrix,
and within a grid row for its columns.

* `block_roundTrip` — which layouts can be assembled, with what the others are refused, and how the
  blocks are found in the result.
-/

namespace InteriorPoint.Matrix

/-! ## Parts that follow each other -/

/-- Where part `r` begins. -/
def offset (sizes : List ℕ) (r : ℕ) : ℕ := (sizes.take r).sum

@[simp] theorem offset_zero (sizes : List ℕ) : offset sizes 0 = 0 := rfl

@[simp] theorem offset_cons_succ (size : ℕ) (sizes : List ℕ) (r : ℕ) :
    offset (size :: sizes) (r + 1) = size + offset sizes r := rfl

/-- A part ends within the whole. -/
theorem offset_add_le {size r : ℕ} : ∀ {sizes : List ℕ}, sizes[r]? = some size →
    offset sizes r + size ≤ sizes.sum
  | [], h => nomatch h
  | first :: sizes, h => by
    rw [List.sum_cons]
    rcases r with _ | r
    · obtain rfl : first = size := Option.some.inj h
      rw [offset_zero]
      omega
    · have hrest : offset sizes r + size ≤ sizes.sum := offset_add_le h
      rw [offset_cons_succ]
      omega

/-- **Place `i` lies in part `r`.** -/
def InPart (sizes : List ℕ) (i r : ℕ) : Prop :=
  ∃ size, sizes[r]? = some size ∧ offset sizes r ≤ i ∧ i < offset sizes r + size

theorem inPart_cons_zero {first : ℕ} {sizes : List ℕ} {i : ℕ} :
    InPart (first :: sizes) i 0 ↔ i < first := by
  simp [InPart]

theorem inPart_cons_succ {first : ℕ} {sizes : List ℕ} {i r : ℕ} :
    InPart (first :: sizes) i (r + 1) ↔ first ≤ i ∧ InPart sizes (i - first) r := by
  simp only [InPart, List.getElem?_cons_succ, offset_cons_succ]
  constructor
  · rintro ⟨size, hsize, hlo, hhi⟩
    exact ⟨by omega, size, hsize, by omega, by omega⟩
  · rintro ⟨hfirst, size, hsize, hlo, hhi⟩
    exact ⟨size, hsize, by omega, by omega⟩

/-- **Every place of the whole lies in one part.** -/
theorem existsUnique_part : ∀ {sizes : List ℕ} {i : ℕ}, i < sizes.sum → ∃! r, InPart sizes i r
  | [], i, hi => absurd hi (Nat.not_lt_zero i)
  | first :: sizes, i, hi => by
    rw [List.sum_cons] at hi
    by_cases hlt : i < first
    · refine ⟨0, inPart_cons_zero.mpr hlt, fun r hr => ?_⟩
      rcases r with _ | r
      · rfl
      · exact absurd hlt (inPart_cons_succ.mp hr).1.not_gt
    · have hrest : i - first < sizes.sum := by omega
      obtain ⟨r, hr, hunique⟩ := existsUnique_part hrest
      refine ⟨r + 1, inPart_cons_succ.mpr ⟨not_lt.mp hlt, hr⟩, fun r' hr' => ?_⟩
      rcases r' with _ | r'
      · exact absurd (inPart_cons_zero.mp hr') hlt
      · exact congrArg (· + 1) (hunique r' (inPart_cons_succ.mp hr').2)

/-- A list around one of its members. -/
theorem eq_take_append_of_getElem? {β : Type} {l : List β} {r : ℕ} {x : β} (h : l[r]? = some x) :
    l = l.take r ++ x :: l.drop (r + 1) := by
  obtain ⟨hr, rfl⟩ := List.getElem?_eq_some_iff.mp h
  rw [List.getElem_cons_drop, List.take_append_drop]

/-! ## Layouts -/

section Layout

variable {α : Type} {layout : List (List (Matrix α))} {blocks : List (Matrix α)}

/-- **A layout that can be assembled**: there is a grid row, all grid rows are equally wide, and
within each of them all blocks are equally high. -/
structure IsGrid (layout : List (List (Matrix α))) : Prop where
  nonempty : layout ≠ []
  widths : ∀ a ∈ layout, ∀ b ∈ layout, gridWidth a = gridWidth b
  heights : ∀ blocks ∈ layout, ∀ a ∈ blocks, ∀ b ∈ blocks, a.rows = b.rows

/-- The block in place `c` of grid row `r`. -/
def blockAt (layout : List (List (Matrix α))) (r c : ℕ) : Option (Matrix α) :=
  layout[r]?.bind (·[c]?)

/-- The row in which grid row `r` begins. -/
def rowOffset (layout : List (List (Matrix α))) (r : ℕ) : ℕ := offset (layout.map gridHeight) r

/-- The column in which the block in place `c` of grid row `r` begins. -/
def colOffset (layout : List (List (Matrix α))) (r c : ℕ) : ℕ :=
  offset ((layout[r]?.getD []).map cols) c

/-- **The entry in row `i` and column `j` lies in the block** in place `p.2` of grid row `p.1`. -/
def Covers (layout : List (List (Matrix α))) (i j : ℕ) (p : ℕ × ℕ) : Prop :=
  ∃ b, blockAt layout p.1 p.2 = some b ∧
    (rowOffset layout p.1 ≤ i ∧ i < rowOffset layout p.1 + b.rows) ∧
    colOffset layout p.1 p.2 ≤ j ∧ j < colOffset layout p.1 p.2 + b.cols

theorem blockAt_eq_some {r c : ℕ} {b : Matrix α} (h : blockAt layout r c = some b) :
    ∃ blocks, layout[r]? = some blocks ∧ blocks[c]? = some b ∧
      colOffset layout r c = offset (blocks.map cols) c := by
  obtain ⟨blocks, hblocks, hb⟩ := Option.bind_eq_some_iff.mp h
  refine ⟨blocks, hblocks, hb, ?_⟩
  rw [colOffset, hblocks, Option.getD_some]

/-- Equally high blocks are as high as their grid row. -/
theorem rows_eq_gridHeight (h : ∀ a ∈ blocks, ∀ b ∈ blocks, a.rows = b.rows) :
    ∀ m ∈ blocks, m.rows = gridHeight blocks := by
  rcases blocks with _ | ⟨first, rest⟩
  · exact fun m hm => absurd hm List.not_mem_nil
  · exact fun m hm => h m hm first List.mem_cons_self

/-- **A grid row that fits**: its width is `total`, and its blocks are as high as it is. -/
def RowFits (total : ℕ) (blocks : List (Matrix α)) : Prop :=
  gridWidth blocks = total ∧ ∀ m ∈ blocks, m.rows = gridHeight blocks

/-- A layout with a first grid row is a grid if all of its rows fit that one. -/
theorem isGrid_cons_iff {first : List (Matrix α)} {rest : List (List (Matrix α))} :
    IsGrid (first :: rest) ↔ ∀ blocks ∈ first :: rest, RowFits (gridWidth first) blocks := by
  constructor
  · intro h blocks hmem
    exact ⟨h.widths blocks hmem first List.mem_cons_self,
      rows_eq_gridHeight (h.heights blocks hmem)⟩
  · intro h
    refine ⟨List.cons_ne_nil first rest, fun a ha b hb => (h a ha).1.trans (h b hb).1.symm, ?_⟩
    exact fun blocks hmem a ha b hb => ((h blocks hmem).2 a ha).trans ((h blocks hmem).2 b hb).symm

/-- Covering a place, part by part: of the rows, and of the columns of the grid row. -/
theorem IsGrid.covers_iff (h : IsGrid layout) {i j r c : ℕ} : Covers layout i j (r, c) ↔
    InPart (layout.map gridHeight) i r ∧
      ∃ blocks, layout[r]? = some blocks ∧ InPart (blocks.map cols) j c := by
  constructor
  · rintro ⟨b, hb, hrow, hcol⟩
    obtain ⟨blocks, hblocks, hc, hoffset⟩ := blockAt_eq_some hb
    have hheight : b.rows = gridHeight blocks :=
      rows_eq_gridHeight (h.heights blocks (List.mem_of_getElem? hblocks)) b
        (List.mem_of_getElem? hc)
    refine ⟨⟨gridHeight blocks, ?_, hheight ▸ hrow⟩, blocks, hblocks, b.cols, ?_, hoffset ▸ hcol⟩
    · rw [List.getElem?_map, hblocks, Option.map_some]
    · rw [List.getElem?_map, hc, Option.map_some]
  · rintro ⟨⟨height, hheight, hrow⟩, blocks, hblocks, width, hwidth, hcol⟩
    rw [List.getElem?_map, hblocks, Option.map_some, Option.some.injEq] at hheight
    rw [List.getElem?_map, Option.map_eq_some_iff] at hwidth
    obtain ⟨b, hc, rfl⟩ := hwidth
    have hb : blockAt layout r c = some b := by rw [blockAt, hblocks, Option.bind_some, hc]
    have hrows : b.rows = height := by
      rw [← hheight]
      exact rows_eq_gridHeight (h.heights blocks (List.mem_of_getElem? hblocks)) b
        (List.mem_of_getElem? hc)
    have hoffset : colOffset layout r c = offset (blocks.map cols) c := by
      rw [colOffset, hblocks, Option.getD_some]
    exact ⟨b, hb, hrows ▸ hrow, hoffset ▸ hcol⟩

/-- **Every place lies in one block.** -/
theorem IsGrid.existsUnique_covers (h : IsGrid layout) {i j : ℕ}
    (hi : i < (layout.map gridHeight).sum) (hj : ∀ blocks ∈ layout, j < gridWidth blocks) :
    ∃! p, Covers layout i j p := by
  obtain ⟨r, hr, hrow⟩ := existsUnique_part hi
  obtain ⟨height, hheight, hbounds⟩ := id hr
  rw [List.getElem?_map, Option.map_eq_some_iff] at hheight
  obtain ⟨blocks, hblocks, rfl⟩ := hheight
  obtain ⟨c, hc, hcol⟩ := existsUnique_part (hj blocks (List.mem_of_getElem? hblocks))
  refine ⟨(r, c), h.covers_iff.mpr ⟨hr, blocks, hblocks, hc⟩, ?_⟩
  rintro ⟨r', c'⟩ hcovers
  obtain ⟨hr', blocks', hblocks', hc'⟩ := h.covers_iff.mp hcovers
  obtain rfl : r' = r := hrow r' hr'
  obtain rfl : blocks = blocks' := Option.some.inj (hblocks.symm.trans hblocks')
  exact congrArg (r', ·) (hcol c' hc')

end Layout

/-! ## Assembling -/

section Assemble

variable {α : Type} [Scalar α] {layout : List (List (Matrix α))} {blocks : List (Matrix α)}
  {a b m r : Matrix α} {total i j : ℕ}

/-- A matrix is its shape and its entries. -/
theorem eq_of_coeff (hshape : a.shape = b.shape)
    (h : ∀ i < a.rows, ∀ j < a.cols, a.coeff i j = b.coeff i j) : a = b := by
  refine ext (congrArg Prod.fst hshape) (congrArg Prod.snd hshape) fun i j => ?_
  rw [← coeff_val, ← coeff_val]
  exact h i i.isLt j j.isLt

/-- To the right of the columns of the blocks before it, a block is read as it is. -/
theorem besideCoeff_append {before after : List (Matrix α)} (hj : j < m.cols) :
    besideCoeff (before ++ m :: after) i ((before.map cols).sum + j) = m.coeff i j := by
  induction before with
  | nil => rw [List.map_nil, List.sum_nil, Nat.zero_add, List.nil_append, besideCoeff, if_pos hj]
  | cons first before ih =>
    rw [List.map_cons, List.sum_cons, Nat.add_assoc, List.cons_append, besideCoeff,
      if_neg (by omega), Nat.add_sub_cancel_left, ih]

/-- **The blocks of a grid row beside each other.** -/
def IsRowOf (r : Matrix α) (blocks : List (Matrix α)) : Prop :=
  r.shape = (gridHeight blocks, gridWidth blocks) ∧ ∀ i j, r.coeff i j = besideCoeff blocks i j

omit [Scalar α] in
/-- Blocks of another height are refused. -/
theorem error_of_foldlM_placeBeside : ∀ (ms : List (Matrix α)) (acc : Matrix α),
    (∃ m ∈ ms, m.rows ≠ acc.rows) →
      ∃ lhs rhs, ms.foldlM placeBeside acc = .error (.mismatch .block lhs rhs)
  | [], _, h => by
    obtain ⟨m, hm, _⟩ := h
    exact absurd hm List.not_mem_nil
  | first :: ms, acc, h => by
    rw [List.foldlM_cons, placeBeside]
    split
    · rename_i hfit
      obtain ⟨m, hm, hne⟩ := h
      refine error_of_foldlM_placeBeside ms (acc.beside first hfit) ⟨m, ?_, hne⟩
      exact (List.mem_cons.mp hm).resolve_left fun heq => hne (heq ▸ hfit.symm)
    · exact ⟨_, _, rfl⟩

/-- **A grid row that fits is assembled.** -/
theorem RowFits.exists_gridRow (h : RowFits total blocks) :
    ∃ r, gridRow total blocks = .ok r ∧ r.IsRowOf blocks := by
  obtain ⟨r, hr, hshape, hcoeff⟩ :=
    exists_foldlM_placeBeside blocks (noCols (gridHeight blocks)) rfl h.2
  refine ⟨r, ?_, hshape.trans (congrArg (gridHeight blocks, ·) (Nat.zero_add _)), hcoeff⟩
  rw [gridRow, if_neg (not_not.mpr h.1)]
  exact hr

omit [Scalar α] in
/-- …and every other one is refused. -/
theorem exists_error_of_gridRow (h : ¬RowFits total blocks) :
    ∃ lhs rhs, gridRow total blocks = .error (.mismatch .block lhs rhs) := by
  rw [gridRow]
  by_cases hwidth : gridWidth blocks = total
  · rw [if_neg (not_not.mpr hwidth)]
    have hrows : ¬∀ m ∈ blocks, m.rows = gridHeight blocks := fun hrows => h ⟨hwidth, hrows⟩
    push Not at hrows
    exact error_of_foldlM_placeBeside blocks (noCols (gridHeight blocks)) hrows
  · rw [if_pos hwidth]
    exact ⟨_, _, rfl⟩

/-- What is assembled is a grid row that fits. -/
theorem isRowOf_of_gridRow (h : gridRow total blocks = .ok r) :
    RowFits total blocks ∧ r.IsRowOf blocks := by
  by_cases hfits : RowFits total blocks
  · obtain ⟨r', hr', hrow⟩ := hfits.exists_gridRow
    obtain rfl : r = r' := Except.ok.inj (h.symm.trans hr')
    exact ⟨hfits, hrow⟩
  · obtain ⟨_, _, herror⟩ := exists_error_of_gridRow hfits
    exact nomatch h.symm.trans herror

/-- **The grid rows of a layout above each other.** -/
def IsAssembled (m : Matrix α) (layout : List (List (Matrix α))) : Prop :=
  ∃ rs, List.Forall₂ (fun blocks r => r.IsRowOf blocks) layout rs ∧
    (∀ blocks ∈ layout, m.shape = ((rs.map rows).sum, gridWidth blocks)) ∧
    ∀ i j, m.coeff i j = aboveCoeff rs i j

/-- The rows of a grid can all be assembled, and only those of a grid. -/
theorem exists_mapM_gridRow_iff {first : List (Matrix α)} {rest : List (List (Matrix α))} :
    (∃ rs, (first :: rest).mapM (gridRow (gridWidth first)) = .ok rs) ↔ IsGrid (first :: rest) := by
  rw [← failure?_eq_none, failure?_mapM, List.findSome?_eq_none_iff, isGrid_cons_iff]
  refine forall₂_congr fun blocks _ => failure?_eq_none.trans ?_
  constructor
  · rintro ⟨r, hr⟩
    exact (isRowOf_of_gridRow hr).1
  · intro hfits
    obtain ⟨r, hr, _⟩ := hfits.exists_gridRow
    exact ⟨r, hr⟩

/-- **A grid is assembled.** -/
theorem IsGrid.exists_block (h : IsGrid layout) :
    ∃ m, block layout = .ok m ∧ m.IsAssembled layout := by
  obtain ⟨first, rest, rfl⟩ := List.exists_cons_of_ne_nil h.nonempty
  obtain ⟨rs, hrs⟩ := exists_mapM_gridRow_iff.mpr h
  have hrows := mapM_eq_ok.mp hrs
  have hcols : ∀ r ∈ rs, r.cols = gridWidth first := by
    intro r hr
    obtain ⟨blocks, _, hblocks⟩ := exists_of_mem_mapM hrs hr
    obtain ⟨hfits, hrow⟩ := isRowOf_of_gridRow hblocks
    exact (shape_eq_iff.mp hrow.1).2.trans hfits.1
  obtain ⟨r, rs, _, _, rfl⟩ := List.forall₂_cons_left_iff.mp hrows
  obtain ⟨m, hm, hshape, hcoeff⟩ := exists_stack r rs hcols
  refine ⟨m, (block_eq_stack rfl hrows).trans hm, r :: rs, ?_, fun blocks hmem => ?_, hcoeff⟩
  · exact hrows.imp fun _ _ hr => (isRowOf_of_gridRow hr).2
  · rw [hshape, h.widths blocks hmem first List.mem_cons_self]
    rfl

/-- **Every other layout is refused.** -/
theorem exists_error_of_block (h : ¬IsGrid layout) :
    ∃ lhs rhs, block layout = .error (.mismatch .block lhs rhs) := by
  rcases layout with _ | ⟨first, rest⟩
  · exact ⟨_, _, rfl⟩
  · rcases hrs : (first :: rest).mapM (gridRow (gridWidth first)) with err | rs
    · obtain ⟨blocks, _, hblocks⟩ := exists_of_mapM_eq_error hrs
      have hfits : ¬RowFits (gridWidth first) blocks := by
        intro hfits
        obtain ⟨r, hr, _⟩ := hfits.exists_gridRow
        exact nomatch hr.symm.trans hblocks
      obtain ⟨lhs, rhs, herror⟩ := exists_error_of_gridRow hfits
      refine ⟨lhs, rhs, ?_⟩
      rw [block, hrs, Except.error.inj (hblocks.symm.trans herror)]
      rfl
    · exact absurd (exists_mapM_gridRow_iff.mp ⟨rs, hrs⟩) h

/-! ## Taking apart -/

/-- The rows of an assembled matrix. -/
theorem IsAssembled.shape_eq (h : m.IsAssembled layout) (hmem : blocks ∈ layout) :
    m.shape = ((layout.map gridHeight).sum, gridWidth blocks) := by
  obtain ⟨rs, hrs, hshape, _⟩ := h
  have hheights : layout.map gridHeight = rs.map rows :=
    map_eq_of_forall₂ (hrs.imp fun _ _ hrow => (shape_eq_iff.mp hrow.1).1.symm)
  rw [hheights]
  exact hshape blocks hmem

/-- **An entry of a block is found at its offsets.** -/
theorem IsAssembled.coeff_eq (h : m.IsAssembled layout) {r c : ℕ}
    (hblocks : layout[r]? = some blocks) (hb : blocks[c]? = some b) (hi : i < gridHeight blocks)
    (hj : j < b.cols) :
    m.coeff (rowOffset layout r + i) (offset (blocks.map cols) c + j) = b.coeff i j := by
  obtain ⟨rs, hrs, _, hcoeff⟩ := h
  rw [eq_take_append_of_getElem? hblocks] at hrs
  obtain ⟨front, row, back, rfl, hfront, hrow⟩ := exists_of_forall₂_append hrs
  have hoffset : rowOffset layout r = (front.map rows).sum := by
    rw [rowOffset, offset, ← List.map_take]
    exact congrArg List.sum
      (map_eq_of_forall₂ (hfront.imp fun _ _ hrow => (shape_eq_iff.mp hrow.1).1.symm))
  have hin : i < row.rows := hi.trans_eq (shape_eq_iff.mp hrow.1).1.symm
  rw [hcoeff, hoffset, aboveCoeff_append hin, hrow.2, offset, ← List.map_take]
  nth_rewrite 1 [eq_take_append_of_getElem? hb]
  exact besideCoeff_append hj

/-- **Every block is cut out of the assembled matrix.** -/
theorem IsAssembled.slice_eq (h : m.IsAssembled layout) (hgrid : IsGrid layout) {r c : ℕ}
    (hb : blockAt layout r c = some b) :
    m.slice (rowOffset layout r) (colOffset layout r c) b.rows b.cols = .ok b := by
  obtain ⟨blocks, hblocks, hc, hoffset⟩ := blockAt_eq_some hb
  have hmem := List.mem_of_getElem? hblocks
  obtain ⟨hrows, hcols⟩ := shape_eq_iff.mp (h.shape_eq hmem)
  have hheight : b.rows = gridHeight blocks :=
    rows_eq_gridHeight (hgrid.heights blocks hmem) b (List.mem_of_getElem? hc)
  have hrow : rowOffset layout r + b.rows ≤ m.rows := by
    rw [hrows, hheight]
    exact offset_add_le (by rw [List.getElem?_map, hblocks, Option.map_some])
  have hcol : colOffset layout r c + b.cols ≤ m.cols := by
    rw [hcols, hoffset]
    exact offset_add_le (by rw [List.getElem?_map, hc, Option.map_some])
  obtain ⟨part, hpart, hshape, hcoeff⟩ := exists_slice hrow hcol
  obtain ⟨hpartRows, hpartCols⟩ := shape_eq_iff.mp hshape
  rw [hpart]
  refine congrArg Except.ok (eq_of_coeff hshape fun i hi j hj => ?_)
  rw [hpartRows] at hi
  rw [hpartCols] at hj
  rw [hcoeff i hi j hj, hoffset]
  exact h.coeff_eq hblocks hc (hi.trans_eq hheight) hj

end Assemble

/-- Grid rows that are cut at different columns, with a block without columns and a grid row without
rows. -/
def unevenGrid : List (List (Matrix ℚ)) :=
  [[⟨2, 1, #[1, 2], rfl⟩, noCols 2, ⟨2, 2, #[3, 4, 5, 6], rfl⟩], [noRows 3],
    [⟨1, 2, #[7, 8], rfl⟩, ⟨1, 1, #[9], rfl⟩]]

end InteriorPoint.Matrix
