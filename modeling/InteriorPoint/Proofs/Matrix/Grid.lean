import Mathlib
import InteriorPoint.Proofs.Matrix.Entries

/-!
# Proofs/Matrix/Grid — entries of matrices that are put together and taken apart

Blocks that stand beside each other are read by `besideCoeff`, those above each other by
`aboveCoeff`: both walk along the list and count down the place that is asked for.  A grid whose
blocks fit can be assembled, and is read by one after the other (`exists_gridRow`, `exists_stack`).
A matrix that `IsStack` of others is determined by them, however it was made.
-/

namespace InteriorPoint.Matrix

variable {α : Type} [Scalar α] {a b c m : Matrix α}

/-- Places in three pieces that follow each other, counted from the front or piece by piece. -/
theorem ite_add {β : Type} (first second third : ℕ → β) (c w j : ℕ) :
    (if j < c + w then if j < c then first j else second (j - c) else third (j - (c + w))) =
      if j < c then first j else if j - c < w then second (j - c) else third (j - c - w) := by
  by_cases hj : j < c
  · rw [if_pos (Nat.lt_add_right w hj), if_pos hj, if_pos hj]
  · rw [if_neg hj, if_neg hj, Nat.sub_sub]
    exact if_congr (by omega) rfl rfl

/-! ## Beside each other -/

theorem coeff_beside (a b : Matrix α) (h : a.rows = b.rows) (i j : ℕ) :
    (a.beside b h).coeff i j = if j < a.cols then a.coeff i j else b.coeff i (j - a.cols) := by
  refine coeff_ofFn_of_zero
    (g := fun i j => if j < a.cols then a.coeff i j else b.coeff i (j - a.cols)) ?_ ?_ i j
  · intro i j
    by_cases hj : j.val < a.cols
    · rw [dif_pos hj, if_pos hj, coeff_of_lt i.isLt hj]
    · have hj' : j - a.cols < b.cols := by omega
      rw [dif_neg hj, if_neg hj, coeff_of_lt (h ▸ i.isLt) hj']
      rfl
  · intro i j hij
    split_ifs with hj
    · exact coeff_of_not_lt (by omega)
    · exact coeff_of_not_lt (by omega)

/-- An entry of blocks that stand beside each other. -/
def besideCoeff : List (Matrix α) → ℕ → ℕ → α
  | [], _, _ => 0
  | m :: ms, i, j => if j < m.cols then m.coeff i j else besideCoeff ms i (j - m.cols)

/-- One more block to the right of those that are in place already. -/
def placeBeside (acc m : Matrix α) : Except (Error α) (Matrix α) :=
  if h : acc.rows = m.rows then .ok (acc.beside m h)
  else .error (.mismatch .block m.shape (acc.rows, m.cols))

theorem exists_foldlM_placeBeside {height : ℕ} :
    ∀ (ms : List (Matrix α)) (acc : Matrix α), acc.rows = height → (∀ m ∈ ms, m.rows = height) →
      ∃ r, ms.foldlM placeBeside acc = .ok r ∧ r.shape = (height, acc.cols + gridWidth ms) ∧
        ∀ i j, r.coeff i j =
          if j < acc.cols then acc.coeff i j else besideCoeff ms i (j - acc.cols)
  | [], acc, hacc, _ => by
    refine ⟨acc, rfl, shape_eq_iff.mpr ⟨hacc, rfl⟩, fun i j => ?_⟩
    split_ifs with hj
    · rfl
    · exact coeff_of_not_lt fun h => hj h.2
  | m :: ms, acc, hacc, hms => by
    obtain ⟨hm, hms⟩ := List.forall_mem_cons.mp hms
    have hfit : acc.rows = m.rows := hacc.trans hm.symm
    obtain ⟨r, hr, hshape, hcoeff⟩ :=
      exists_foldlM_placeBeside ms (acc.beside m hfit) hacc hms
    refine ⟨r, ?_, ?_, fun i j => ?_⟩
    · rw [List.foldlM_cons, placeBeside, dif_pos hfit]
      exact hr
    · rw [hshape]
      simp [gridWidth, beside, Nat.add_assoc]
    · have hcols : (acc.beside m hfit).cols = acc.cols + m.cols := rfl
      rw [hcoeff, hcols, coeff_beside, besideCoeff]
      exact ite_add (acc.coeff i) (m.coeff i) (besideCoeff ms i) acc.cols m.cols j

/-- **A grid row whose blocks fit.** -/
theorem exists_gridRow (first : Matrix α) (rest : List (Matrix α)) {height total : ℕ}
    (hrows : ∀ m ∈ first :: rest, m.rows = height) (htotal : gridWidth (first :: rest) = total) :
    ∃ r, gridRow total (first :: rest) = .ok r ∧ r.shape = (height, total) ∧
      ∀ i j, r.coeff i j = besideCoeff (first :: rest) i j := by
  have hheight : gridHeight (first :: rest) = height := hrows first List.mem_cons_self
  obtain ⟨r, hr, hshape, hcoeff⟩ :=
    exists_foldlM_placeBeside (first :: rest) (noCols (gridHeight (first :: rest))) hheight hrows
  refine ⟨r, ?_, ?_, fun i j => hcoeff i j⟩
  · rw [gridRow, if_neg (not_not.mpr htotal)]
    exact hr
  · rw [hshape, htotal]
    exact congrArg (height, ·) (Nat.zero_add total)

/-! ## Above each other -/

theorem coeff_above (a b : Matrix α) (h : a.cols = b.cols) (i j : ℕ) :
    (a.above b h).coeff i j = if i < a.rows then a.coeff i j else b.coeff (i - a.rows) j := by
  by_cases hij : i < a.rows + b.rows ∧ j < a.cols
  · rw [coeff_of_lt (m := a.above b h) hij.1 hij.2]
    split_ifs with hi
    · rw [coeff_of_lt hi hij.2]
      exact Array.getElem_append_left (a.size_eq ▸ place_lt hi hij.2)
    · have hplace : i * a.cols + j = (i - a.rows) * b.cols + j + a.data.size := by
        rw [a.size_eq, ← h, Nat.sub_mul]
        have := Nat.mul_le_mul_right a.cols (Nat.le_of_not_lt hi)
        omega
      rw [coeff_of_lt (by omega) (h ▸ hij.2)]
      simp only [get, above, hplace]
      exact (Array.getElem_append_right' ..).symm
  · rw [coeff_of_not_lt hij]
    split_ifs with hi
    · rw [coeff_of_not_lt (by omega)]
    · rw [coeff_of_not_lt (by omega)]

/-- An entry of blocks that stand above each other. -/
def aboveCoeff : List (Matrix α) → ℕ → ℕ → α
  | [], _, _ => 0
  | m :: ms, i, j => if i < m.rows then m.coeff i j else aboveCoeff ms (i - m.rows) j

section Reading

variable {ms : List (Matrix α)} {i j : ℕ}

theorem aboveCoeff_of_lt (hi : i < m.rows) : aboveCoeff (m :: ms) i j = m.coeff i j := if_pos hi

theorem aboveCoeff_add {rows : ℕ} (hm : m.rows = rows) :
    aboveCoeff (m :: ms) (rows + i) j = aboveCoeff ms i j := by
  rw [aboveCoeff, hm, if_neg (by omega), Nat.add_sub_cancel_left]

/-- Under the rows of the blocks before it, a block is read as it is. -/
theorem aboveCoeff_append {before after : List (Matrix α)} (hi : i < m.rows) :
    aboveCoeff (before ++ m :: after) ((before.map rows).sum + i) j = m.coeff i j := by
  induction before with
  | nil => rw [List.map_nil, List.sum_nil, Nat.zero_add, List.nil_append, aboveCoeff_of_lt hi]
  | cons first before ih =>
    rw [List.map_cons, List.sum_cons, Nat.add_assoc, List.cons_append, aboveCoeff_add rfl, ih]

end Reading

theorem exists_foldlM_placeBelow (err : Matrix α → Error α) {width : ℕ} :
    ∀ (ms : List (Matrix α)) (acc : Matrix α), acc.cols = width → (∀ m ∈ ms, m.cols = width) →
      ∃ r, ms.foldlM (placeBelow err) acc = .ok r ∧
        ∀ i j, r.coeff i j =
          if i < acc.rows then acc.coeff i j else aboveCoeff ms (i - acc.rows) j
  | [], acc, hacc, _ => by
    refine ⟨acc, rfl, fun i j => ?_⟩
    split_ifs with hi
    · rfl
    · exact coeff_of_not_lt fun h => hi h.1
  | m :: ms, acc, hacc, hms => by
    obtain ⟨hm, hms⟩ := List.forall_mem_cons.mp hms
    have hfit : acc.cols = m.cols := hacc.trans hm.symm
    obtain ⟨r, hr, hcoeff⟩ := exists_foldlM_placeBelow err ms (acc.above m hfit) hacc hms
    refine ⟨r, ?_, fun i j => ?_⟩
    · rw [List.foldlM_cons, placeBelow, dif_pos hfit]
      exact hr
    · have hrows : (acc.above m hfit).rows = acc.rows + m.rows := rfl
      rw [hcoeff, hrows, coeff_above, aboveCoeff]
      exact ite_add (acc.coeff · j) (m.coeff · j) (aboveCoeff ms · j) acc.rows m.rows i

/-- **A stack of matrices of one width.** -/
theorem exists_stack (first : Matrix α) (rest : List (Matrix α)) {width : ℕ}
    (hcols : ∀ m ∈ first :: rest, m.cols = width) :
    ∃ r, stack (first :: rest) = .ok r ∧
      r.shape = (first.rows + (rest.map rows).sum, width) ∧
      ∀ i j, r.coeff i j = aboveCoeff (first :: rest) i j := by
  obtain ⟨hfirst, hrest⟩ := List.forall_mem_cons.mp hcols
  obtain ⟨r, hr, hcoeff⟩ := exists_foldlM_placeBelow
    (fun m => .mismatch .stack first.shape m.shape) rest first hfirst hrest
  refine ⟨r, hr, ?_, hcoeff⟩
  rw [shape_of_stack_eq_ok hr, hfirst]

omit [Scalar α] in
/-- A grid is the stack of its rows. -/
theorem block_eq_stack {first : List (Matrix α)} {rest : List (List (Matrix α))}
    {rs : List (Matrix α)} {total : ℕ} (hwidth : gridWidth first = total)
    (h : List.Forall₂ (fun blocks r => gridRow total blocks = .ok r) (first :: rest) rs) :
    block (first :: rest) = stack rs := by
  rw [block, hwidth, mapM_eq_ok.mpr h]
  rfl

/-! ## Columns above each other -/

omit [Scalar α] in
/-- Entries under a column are a column under it. -/
theorem column_append {v : Matrix α} {data : Array α} (hv : v.cols = (column data).cols) :
    column (v.data ++ data) = v.above (column data) hv := by
  obtain ⟨rows, cols, entries, hsize⟩ := v
  obtain rfl : cols = 1 := hv
  simp [column, above, hsize]

/-- The entries of columns, one after the other, are those of the columns above each other. -/
theorem column_flatMap : ∀ {vs : List (Matrix α)}, (∀ v ∈ vs, v.cols = 1) →
    (column (vs.toArray.flatMap data)).rows = (vs.map rows).sum ∧
      ∀ i, (column (vs.toArray.flatMap data)).coeff i 0 = aboveCoeff vs i 0
  | [], _ => ⟨rfl, fun i => coeff_of_not_lt (by simp [column])⟩
  | v :: vs, hvs => by
    obtain ⟨hv, hvs⟩ := List.forall_mem_cons.mp hvs
    obtain ⟨hrows, hcoeff⟩ := column_flatMap hvs
    have hcons : (v :: vs).toArray.flatMap data = v.data ++ vs.toArray.flatMap data := by simp
    have hfit : v.cols = (column (vs.toArray.flatMap data)).cols := hv
    rw [hcons, column_append hfit]
    refine ⟨congrArg (v.rows + ·) hrows, fun i => ?_⟩
    rw [coeff_above, aboveCoeff, hcoeff]

/-- **Columns above each other.** -/
theorem exists_stackColumns (first : Matrix α) (rest : List (Matrix α))
    (hcols : ∀ v ∈ first :: rest, v.cols = 1) :
    ∃ r, stackColumns (first :: rest) = .ok r ∧
      r.shape = (((first :: rest).map rows).sum, 1) ∧
      ∀ i, r.coeff i 0 = aboveCoeff (first :: rest) i 0 := by
  obtain ⟨hrows, hcoeff⟩ := column_flatMap hcols
  refine ⟨_, ?_, shape_eq_iff.mpr ⟨hrows, rfl⟩, hcoeff⟩
  have hcheck : (first :: rest).forM (requireColumn .stackColumns) = .ok () :=
    forM_eq_ok fun v hv => if_pos (hcols v hv)
  rw [stackColumns, if_neg (by simp), hcheck]
  rfl

/-! ## Stacks -/

section Stacks

variable {r : Matrix α} {parts : List (Matrix α)} {width : ℕ}

/-- **Matrices of one width above each other**: their rows add up, and their entries stand one after
the other. -/
def IsStack (m : Matrix α) (width : ℕ) (parts : List (Matrix α)) : Prop :=
  m.shape = ((parts.map rows).sum, width) ∧ m.data = parts.toArray.flatMap data

omit [Scalar α] in
/-- There is one such matrix. -/
theorem IsStack.eq (hm : m.IsStack width parts) (hr : r.IsStack width parts) : m = r := by
  obtain ⟨mrows, mcols, mdata, _⟩ := m
  obtain ⟨rrows, rcols, rdata, _⟩ := r
  obtain ⟨hrows, hcols⟩ := Prod.mk.inj (hm.1.trans hr.1.symm)
  obtain rfl : mrows = rrows := hrows
  obtain rfl : mcols = rcols := hcols
  obtain rfl : mdata = rdata := hm.2.trans hr.2.symm
  rfl

theorem isStack_column (hcols : ∀ v ∈ parts, v.cols = 1) :
    (column (parts.toArray.flatMap data)).IsStack 1 parts :=
  ⟨shape_eq_iff.mpr ⟨(column_flatMap hcols).1, rfl⟩, rfl⟩

theorem exists_isStack (hcols : ∀ v ∈ parts, v.cols = width) :
    ∃ r, stack (noRows width :: parts) = .ok r ∧ r.IsStack width parts ∧
      ∀ i j, r.coeff i j = aboveCoeff parts i j := by
  obtain ⟨r, hr, hshape, hcoeff⟩ :=
    exists_stack (noRows width) parts (List.forall_mem_cons.mpr ⟨rfl, hcols⟩)
  refine ⟨r, hr, ⟨?_, ?_⟩, fun i j => (hcoeff i j).trans (if_neg (Nat.not_lt_zero i))⟩
  · exact hshape.trans (congrArg (·, width) (Nat.zero_add _))
  · exact (data_foldlM_placeBelow hr).trans Array.empty_append

/-- **A stack is read part by part.** -/
theorem IsStack.coeff_eq (h : m.IsStack width parts) (hcols : ∀ v ∈ parts, v.cols = width)
    (i j : ℕ) : m.coeff i j = aboveCoeff parts i j := by
  obtain ⟨r, _, hr, hcoeff⟩ := exists_isStack hcols
  rw [h.eq hr, hcoeff]

/-- The first entry of a stack that is not finite is the first one of its parts. -/
theorem IsStack.firstNonFinite?_eq (h : m.IsStack width parts) :
    m.firstNonFinite? = parts.findSome? firstNonFinite? := by
  rw [firstNonFinite?, h.2, Array.find?_flatMap, List.findSome?_toArray]
  rfl

end Stacks

/-! ## Parts of a matrix -/

/-- **A part of a matrix** that lies in it. -/
theorem exists_slice {row col rows cols : ℕ} (hrow : row + rows ≤ m.rows)
    (hcol : col + cols ≤ m.cols) :
    ∃ r, m.slice row col rows cols = .ok r ∧ r.shape = (rows, cols) ∧
      ∀ i < rows, ∀ j < cols, r.coeff i j = m.coeff (row + i) (col + j) := by
  refine ⟨_, dif_pos ⟨hrow, hcol⟩, rfl, fun i hi j hj => ?_⟩
  rw [coeff_ofFn hi hj, coeff_of_lt (by omega) (by omega)]

end InteriorPoint.Matrix
