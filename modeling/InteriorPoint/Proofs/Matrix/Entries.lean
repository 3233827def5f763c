import Mathlib
import InteriorPoint.Matrix.Block
import InteriorPoint.Proofs.Exact
import InteriorPoint.Proofs.Matrix.Shape

/-!
# Proofs/Matrix/Entries — matrices read entry by entry

`coeff` reads a matrix at any place, with zero outside of it.  Every operation has one lemma that
gives its entries; over exact scalars none of them needs to know where the matrix ends, so blocks of
any size, empty ones included, are read alike.  `entries` is the matrix of linear algebra with given
dimensions, and `vec` the vector in the first column.
-/

namespace InteriorPoint.Matrix

section Coeff

variable {α : Type} [Scalar α]

omit [Scalar α] in
theorem get?_ofFn (rows cols : ℕ) (f : Fin rows → Fin cols → α) (i j : ℕ) :
    (ofFn rows cols f).get? i j =
      if h : i < rows ∧ j < cols then some (f ⟨i, h.1⟩ ⟨j, h.2⟩) else none := by
  by_cases h : i < rows ∧ j < cols
  · rw [dif_pos h]
    exact (dif_pos h).trans (congrArg some (get_ofFn ..))
  · rw [dif_neg h]
    exact dif_neg h

/-- **The entry at a place**, and zero where the matrix has none. -/
def coeff (m : Matrix α) (i j : ℕ) : α := (m.get? i j).getD 0

theorem coeff_of_lt {m : Matrix α} {i j : ℕ} (hi : i < m.rows) (hj : j < m.cols) :
    m.coeff i j = m.get ⟨i, hi⟩ ⟨j, hj⟩ := by
  rw [coeff, get?, dif_pos ⟨hi, hj⟩]
  rfl

theorem coeff_of_not_lt {m : Matrix α} {i j : ℕ} (h : ¬(i < m.rows ∧ j < m.cols)) :
    m.coeff i j = 0 := by
  rw [coeff, get?, dif_neg h]
  rfl

@[simp] theorem coeff_val (m : Matrix α) (i : Fin m.rows) (j : Fin m.cols) :
    m.coeff i j = m.get i j := coeff_of_lt i.isLt j.isLt

theorem coeff_ofFn {rows cols i j : ℕ} {f : Fin rows → Fin cols → α} (hi : i < rows)
    (hj : j < cols) : (ofFn rows cols f).coeff i j = f ⟨i, hi⟩ ⟨j, hj⟩ :=
  (coeff_of_lt hi hj).trans (get_ofFn ..)

/-- A matrix made entry by entry from something that is zero outside of it. -/
theorem coeff_ofFn_of_zero {rows cols : ℕ} {f : Fin rows → Fin cols → α} {g : ℕ → ℕ → α}
    (hf : ∀ i j, f i j = g i j) (hg : ∀ i j, ¬(i < rows ∧ j < cols) → g i j = 0) (i j : ℕ) :
    (ofFn rows cols f).coeff i j = g i j := by
  by_cases h : i < rows ∧ j < cols
  · rw [coeff_ofFn h.1 h.2, hf]
  · rw [coeff_of_not_lt h, hg i j h]

/-- The entries with `rows` rows and `cols` columns, as a matrix of linear algebra. -/
def entries (m : Matrix α) (rows cols : ℕ) :=
  Matrix.of fun (i : Fin rows) (j : Fin cols) => m.coeff i j

@[simp] theorem entries_apply (m : Matrix α) {rows cols : ℕ} (i : Fin rows) (j : Fin cols) :
    m.entries rows cols i j = m.coeff i j := rfl

/-- The first `n` entries of the first column. -/
def vec (m : Matrix α) (n : ℕ) : Fin n → α := fun i => m.coeff i 0

@[simp] theorem vec_apply (m : Matrix α) {n : ℕ} (i : Fin n) : m.vec n i = m.coeff i 0 := rfl

theorem coeff_column {data : Array α} {i : ℕ} (hi : i < data.size) :
    (column data).coeff i 0 = data[i] := by
  rw [coeff_of_lt (m := column data) hi Nat.one_pos]
  simp [get, column]

/-- The entries of a column, in order. -/
theorem toList_data_of_shape {m : Matrix α} {n : ℕ} (h : m.shape = (n, 1)) :
    m.data.toList = (List.finRange n).map (m.vec n) := by
  obtain ⟨rfl, hcols⟩ := shape_eq_iff.mp h
  refine List.ext_getElem (by simp [m.size_eq, hcols]) fun i hi hi' => ?_
  have hlt : i < m.rows := by simpa using hi'
  simp [coeff_of_lt hlt (hcols ▸ Nat.one_pos), get, hcols]

theorem vec_column {n : ℕ} (v : Vector α n) : (column v.toArray).vec n = v.get := by
  ext i
  rw [vec_apply, coeff_column (by simp), Vector.getElem_toArray]
  rfl

omit [Scalar α] in
/-- An entry of rows that are computed one from the other is computed the same way. -/
theorem get_foldl_ofFn {β : Type} {n : ℕ} (g : β → α → Fin n → α) (xs : List β) (v : Vector α n)
    (l : Fin n) :
    (xs.foldl (fun (acc : Vector α n) k => Vector.ofFn fun l => g k (acc.get l) l) v).get l =
      xs.foldl (fun acc k => g k acc l) (v.get l) := by
  induction xs generalizing v with
  | nil => rfl
  | cons k xs ih => rw [List.foldl_cons, ih, List.foldl_cons, Vector.get_ofFn]

/-- **An entry of a product** is a sum of products, added up from the left. -/
theorem get_mul (a b : Matrix α) (h : a.cols = b.rows) (i : Fin a.rows) (j : Fin b.cols) :
    (mul a b h).get i j =
      (List.finRange a.cols).foldl (fun acc k => acc + a.get i k * b.get (k.cast h) j) 0 := by
  refine (get_ofFn ..).trans ?_
  rw [Vector.get_ofFn, productRow,
    get_foldl_ofFn fun k acc c => acc + a.get i k * b.get (k.cast h) c, Vector.get_replicate]

theorem entry_eq_coeff (v : Matrix α) (h : v.cols = 1) (i : Fin v.rows) :
    v.entry h i = v.coeff i 0 := (coeff_of_lt i.isLt (h ▸ Nat.one_pos)).symm

end Coeff

/-! ## Arithmetic over exact scalars -/

section Exact

variable {K : Type} [ExactScalar K] {a b c m : Matrix K} {i j : ℕ}

@[simp] theorem coeff_transpose (m : Matrix K) (i j : ℕ) : m.transpose.coeff i j = m.coeff j i :=
  coeff_ofFn_of_zero (g := fun i j => m.coeff j i) (fun _ _ => (coeff_val ..).symm)
    (fun _ _ h => coeff_of_not_lt fun h' => h h'.symm) i j

@[simp] theorem coeff_scale (m : Matrix K) (factor : K) (i j : ℕ) :
    (m.scale factor).coeff i j = m.coeff i j * factor := by
  by_cases h : i < m.rows ∧ j < m.cols
  · rw [coeff_of_lt h.1 h.2, coeff_of_lt (m := m.scale factor) h.1 h.2]
    exact get_map ..
  · rw [coeff_of_not_lt h, coeff_of_not_lt (m := m.scale factor) h, zero_mul]

@[simp] theorem coeff_zeros (rows cols i j : ℕ) : (zeros rows cols : Matrix K).coeff i j = 0 :=
  coeff_ofFn_of_zero (g := fun _ _ => 0) (fun _ _ => rfl) (fun _ _ _ => rfl) i j

theorem coeff_ones {n : ℕ} (hi : i < n) : (ones n : Matrix K).coeff i 0 = 1 :=
  coeff_ofFn hi Nat.one_pos

theorem coeff_identity {n : ℕ} (hi : i < n) (hj : j < n) :
    (identity n : Matrix K).coeff i j = if i = j then 1 else 0 := by
  rw [identity, coeff_ofFn hi hj]
  simp

/-- The entries of a diagonal matrix. -/
theorem coeff_of_diag_eq_ok {v : Matrix K} (h : v.diag = .ok m) (i j : ℕ) :
    m.coeff i j = if i = j then v.coeff i 0 else 0 := by
  rw [diag] at h
  split at h
  · cases h
    refine coeff_ofFn_of_zero (g := fun i j => if i = j then v.coeff i 0 else 0) ?_ ?_ i j
    · intro i j
      simp only [Fin.ext_iff, entry_eq_coeff]
    · intro i j hij
      split_ifs with heq
      · exact coeff_of_not_lt fun h' => hij ⟨h'.1, heq ▸ h'.1⟩
      · rfl
  · cases h

theorem coeff_zipWith {f : K → K → K} (hf : f 0 0 = 0) {op : Operation}
    (h : zipWith? op f a b = .ok c) (i j : ℕ) : c.coeff i j = f (a.coeff i j) (b.coeff i j) := by
  obtain ⟨hshape, rfl⟩ := eq_of_zipWith?_eq_ok h
  have hrows : a.rows = b.rows := congrArg Prod.fst hshape
  have hcols : a.cols = b.cols := congrArg Prod.snd hshape
  refine coeff_ofFn_of_zero (g := fun i j => f (a.coeff i j) (b.coeff i j)) ?_ ?_ i j
  · intro i j
    rw [coeff_val, ← coeff_val b]
    rfl
  · intro i j hij
    have hij' : ¬(i < b.rows ∧ j < b.cols) := fun h' => hij ⟨hrows ▸ h'.1, hcols ▸ h'.2⟩
    rw [coeff_of_not_lt hij, coeff_of_not_lt hij', hf]

theorem coeff_of_add_eq_ok (h : a.add b = .ok c) (i j : ℕ) :
    c.coeff i j = a.coeff i j + b.coeff i j := coeff_zipWith (add_zero 0) h i j

theorem coeff_of_subtract_eq_ok (h : a.subtract b = .ok c) (i j : ℕ) :
    c.coeff i j = a.coeff i j - b.coeff i j := coeff_zipWith (sub_zero 0) h i j

theorem coeff_of_hadamard_eq_ok (h : a.hadamard b = .ok c) (i j : ℕ) :
    c.coeff i j = a.coeff i j * b.coeff i j := coeff_zipWith (mul_zero 0) h i j

/-- **The entries of a product.** -/
theorem coeff_of_multiply_eq_ok {rows inner : ℕ} (ha : a.shape = (rows, inner))
    (h : a.multiply b = .ok c) (i j : ℕ) :
    c.coeff i j = ∑ l : Fin inner, a.coeff i l * b.coeff l j := by
  obtain ⟨rfl, rfl⟩ := shape_eq_iff.mp ha
  rw [multiply] at h
  split at h
  · rename_i hfit
    cases h
    refine coeff_ofFn_of_zero (g := fun i j => ∑ l : Fin a.cols, a.coeff i l * b.coeff l j)
      ?_ ?_ i j
    · intro i j
      refine ((get_ofFn ..).symm.trans (get_mul a b hfit i j)).trans ?_
      rw [ExactScalar.foldl_add_eq, zero_add, Fin.sum_univ_def]
      refine congrArg List.sum (List.map_congr_left fun l _ => ?_)
      rw [coeff_val, ← coeff_val b]
      rfl
    · intro i j hij
      refine Finset.sum_eq_zero fun l _ => ?_
      rcases not_and_or.mp hij with hi | hj
      · rw [coeff_of_not_lt fun h => hi h.1, zero_mul]
      · rw [coeff_of_not_lt fun h => hj h.2, mul_zero]
  · cases h

/-- **The inner product of two columns.** -/
theorem eq_of_dot_eq_ok {n : ℕ} (ha : a.shape = (n, 1)) {d : K} (h : a.dot b = .ok d) :
    d = a.vec n ⬝ᵥ b.vec n := by
  simp only [dot, bind_eq_ok] at h
  obtain ⟨_, _, h⟩ := h
  split at h
  · rename_i hb
    rw [← pure_eq_ok.mp h, sum, ← Array.foldl_toList, Array.toList_zipWith, toList_data_of_shape ha,
      toList_data_of_shape (hb.symm.trans ha), List.zipWith_map, List.zipWith_self, neg_zero,
      ← List.sum_eq_foldl]
    exact (Fin.sum_univ_def _).symm
  · exact nomatch h

/-- A column is its length and its entries. -/
theorem eq_of_vec {n : ℕ} (ha : a.shape = (n, 1)) (hb : b.shape = (n, 1))
    (h : ∀ i, a.vec n i = b.vec n i) : a = b := by
  obtain ⟨rfl, hac⟩ := shape_eq_iff.mp ha
  obtain ⟨hbr, hbc⟩ := shape_eq_iff.mp hb
  refine ext hbr.symm (hac.trans hbc.symm) fun i j => ?_
  have hj : j.val = 0 := by omega
  rw [← coeff_val, ← coeff_val, Fin.val_cast, Fin.val_cast, hj]
  exact h i

end Exact

end InteriorPoint.Matrix
