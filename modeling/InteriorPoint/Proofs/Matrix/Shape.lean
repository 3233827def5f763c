import Mathlib
import InteriorPoint.Curvature
import InteriorPoint.Matrix.Block
import InteriorPoint.Proofs.Sequence

/-!
# Proofs/Matrix/Shape — shapes of results

An operation that joins matrices succeeds as soon as their shapes fit, and the shape of its result
is known before its entries are (`exists_zipWith?`, `exists_multiply`, `shape_of_stack_eq_ok`).
Nothing here depends on the arithmetic.
-/

namespace InteriorPoint.Matrix

variable {α : Type}

@[simp] theorem shape_column (data : Array α) : (column data).shape = (data.size, 1) := rfl

theorem shape_eq_iff {m : Matrix α} {rows cols : Nat} :
    m.shape = (rows, cols) ↔ m.rows = rows ∧ m.cols = cols := Prod.ext_iff

theorem shape_transpose_of_shape {m : Matrix α} {rows cols : Nat} (h : m.shape = (rows, cols)) :
    m.transpose.shape = (cols, rows) := congrArg Prod.swap h

/-- A matrix of one column has as many entries as rows. -/
theorem size_data_of_shape {m : Matrix α} {rows : Nat} (h : m.shape = (rows, 1)) :
    m.data.size = rows := by
  obtain ⟨hr, hc⟩ := shape_eq_iff.mp h
  rw [m.size_eq, hr, hc, Nat.mul_one]

/-- A matrix of one column and two rows. -/
theorem exists_eq_column_pair {m : Matrix α} (h : m.shape = (2, 1)) :
    ∃ a b, m = column #[a, b] := by
  obtain ⟨rows, cols, ⟨data⟩, hsize⟩ := m
  obtain ⟨rfl, rfl⟩ := shape_eq_iff.mp h
  obtain ⟨a, b, rfl⟩ := List.length_eq_two.mp hsize
  exact ⟨a, b, rfl⟩

/-! ## Entry by entry -/

section ZipWith

variable {op : Operation} {f : α → α → α} {a b c : Matrix α}

/-- **Matrices of one shape can be joined.** -/
theorem zipWith?_eq_ok (h : a.shape = b.shape) :
    zipWith? op f a b = .ok (zipWith f a b (congrArg Prod.fst h) (congrArg Prod.snd h)) :=
  dif_pos (Prod.ext_iff.mp h)

/-- …and only those. -/
theorem eq_of_zipWith?_eq_ok (h : zipWith? op f a b = .ok c) :
    ∃ hs : a.shape = b.shape,
      c = zipWith f a b (congrArg Prod.fst hs) (congrArg Prod.snd hs) := by
  by_cases hs : a.shape = b.shape
  · rw [zipWith?_eq_ok hs] at h
    exact ⟨hs, (Except.ok.inj h).symm⟩
  · have hne : ¬(a.rows = b.rows ∧ a.cols = b.cols) := fun hs' => hs (Prod.ext_iff.mpr hs')
    rw [zipWith?, dif_neg hne] at h
    cases h

theorem exists_zipWith? (h : a.shape = b.shape) :
    ∃ c, zipWith? op f a b = .ok c ∧ c.shape = a.shape := ⟨_, zipWith?_eq_ok h, rfl⟩

/-- The result has the shape of both. -/
theorem shape_of_zipWith?_eq_ok (h : zipWith? op f a b = .ok c) : c.shape = a.shape := by
  obtain ⟨_, rfl⟩ := eq_of_zipWith?_eq_ok h
  rfl

end ZipWith

/-! ## Products -/

section Arithmetic

variable [Scalar α]

@[simp] theorem shape_scale (m : Matrix α) (factor : α) : (m.scale factor).shape = m.shape := rfl

@[simp] theorem shape_mul (a b : Matrix α) (h : a.cols = b.rows) :
    (mul a b h).shape = (a.rows, b.cols) := rfl

@[simp] theorem shape_zeros (rows cols : Nat) :
    (zeros rows cols : Matrix α).shape = (rows, cols) := rfl

/-- A step can be taken from one vector along another of the same shape. -/
theorem exists_add_scale {a b : Matrix α} {shape : Shape} (ha : a.shape = shape)
    (hb : b.shape = shape) (factor : α) :
    ∃ c, a.add (b.scale factor) = .ok c ∧ c.shape = shape := by
  obtain ⟨c, hc, hshape⟩ : ∃ c, a.add (b.scale factor) = .ok c ∧ _ :=
    exists_zipWith? (b := b.scale factor) (ha.trans hb.symm)
  exact ⟨c, hc, hshape.trans ha⟩

/-- A column can be put on a diagonal. -/
theorem exists_diag {v : Matrix α} {rows : Nat} (hv : v.shape = (rows, 1)) :
    ∃ m, v.diag = .ok m ∧ m.shape = (rows, rows) := by
  obtain ⟨rfl, hcols⟩ := shape_eq_iff.mp hv
  exact ⟨_, dif_pos hcols, rfl⟩

/-- **Matrices that fit can be multiplied.** -/
theorem exists_multiply {a b : Matrix α} {rows inner cols : Nat} (ha : a.shape = (rows, inner))
    (hb : b.shape = (inner, cols)) : ∃ c, a.multiply b = .ok c ∧ c.shape = (rows, cols) := by
  obtain ⟨har, hac⟩ := shape_eq_iff.mp ha
  obtain ⟨hbr, hbc⟩ := shape_eq_iff.mp hb
  refine ⟨_, dif_pos (hac.trans hbr.symm), ?_⟩
  rw [shape_mul, har, hbc]

theorem shape_of_multiply_eq_ok {a b c : Matrix α} {rows inner cols : Nat}
    (ha : a.shape = (rows, inner)) (hb : b.shape = (inner, cols)) (h : a.multiply b = .ok c) :
    c.shape = (rows, cols) := by
  obtain ⟨c', hc', hshape⟩ := exists_multiply ha hb
  obtain rfl := Except.ok.inj (h.symm.trans hc')
  exact hshape

/-- The update of a model of curvature keeps its shape: a difference and a sum are taken from it. -/
theorem shape_of_update_eq_ok {s y q r : Matrix α} (h : Curvature.update s y q = .ok r) :
    r.shape = q.shape := by
  simp only [Curvature.update, bind_eq_ok] at h
  obtain ⟨_, _, h⟩ := h
  split at h
  · obtain ⟨_, hthrow, _⟩ := h
  · simp only [bind_eq_ok] at h
    obtain ⟨qs, _, sqs, _, _, _, sy, _, change, _, sr, _, _, _, down, _, diff, hdiff, up, _,
      hsum⟩ := h
    exact (shape_of_zipWith?_eq_ok hsum).trans (shape_of_zipWith?_eq_ok hdiff)

end Arithmetic

/-! ## Stacks -/

/-- One more matrix under those that are stacked already. -/
def placeBelow (err : Matrix α → Error α) (acc m : Matrix α) : Except (Error α) (Matrix α) :=
  if h : acc.cols = m.cols then .ok (acc.above m h) else .error (err m)

theorem stack_cons (first : Matrix α) (rest : List (Matrix α)) :
    stack (first :: rest) =
      rest.foldlM (placeBelow fun m => .mismatch .stack first.shape m.shape) first := rfl

/-- Matrices put under one of the same width: their heights add up. -/
theorem rows_foldlM_placeBelow {err : Matrix α → Error α} :
    ∀ {rest : List (Matrix α)} {acc m : Matrix α}, rest.foldlM (placeBelow err) acc = .ok m →
      m.rows = acc.rows + (rest.map rows).sum ∧ m.cols = acc.cols
  | [], acc, m, h => by
    cases h
    simp
  | next :: rest, acc, m, h => by
    rw [List.foldlM_cons, bind_eq_ok] at h
    obtain ⟨both, hboth, h⟩ := h
    rw [placeBelow] at hboth
    split at hboth
    · cases hboth
      obtain ⟨hrows, hcols⟩ := rows_foldlM_placeBelow h
      refine ⟨?_, hcols⟩
      rw [hrows, List.map_cons, List.sum_cons, ← Nat.add_assoc]
      rfl
    · cases hboth

/-- …and their entries stand one after the other. -/
theorem data_foldlM_placeBelow {err : Matrix α → Error α} :
    ∀ {rest : List (Matrix α)} {acc m : Matrix α}, rest.foldlM (placeBelow err) acc = .ok m →
      m.data = acc.data ++ rest.toArray.flatMap data
  | [], acc, m, h => by
    obtain rfl := Except.ok.inj h
    simp
  | next :: rest, acc, m, h => by
    rw [List.foldlM_cons, bind_eq_ok] at h
    obtain ⟨both, hboth, h⟩ := h
    rw [placeBelow] at hboth
    split at hboth
    · obtain rfl := Except.ok.inj hboth
      have hcons : (next :: rest).toArray.flatMap data =
          next.data ++ rest.toArray.flatMap data := by simp
      rw [data_foldlM_placeBelow h, hcons, ← Array.append_assoc]
      rfl
    · exact nomatch hboth

/-- **The shape of a stack.** -/
theorem shape_of_stack_eq_ok {first m : Matrix α} {rest : List (Matrix α)}
    (h : stack (first :: rest) = .ok m) :
    m.shape = (first.rows + (rest.map rows).sum, first.cols) := by
  rw [stack_cons] at h
  exact shape_eq_iff.mpr (rows_foldlM_placeBelow h)

end InteriorPoint.Matrix
