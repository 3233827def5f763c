import Mathlib
import InteriorPoint.Proofs.Table.Cells

/-!
# Proofs/Table/Operations — tables that store matrices are computed with as matrices are

A computation on tables `Follows` one on matrices if it never uses an index out of range, refuses
the same arguments with the same errors, and otherwise ends with what the matrix stores.  A sequence
follows a sequence if its parts do (`Follows.bind`), so there is one lemma for each operation, and
the operations that are made of others are put together from these.
-/

namespace InteriorPoint.Table

/-! ## Computations in step -/

section Follows

variable {α β γ β' γ' : Type} {view : β → γ} {view' : β' → γ'} {t : Computation α γ}
  {r : Except (Error α) β}

/-- **A computation on tables follows another one**: no index is out of range, and it ends in the
same way. -/
def Follows (view : β → γ) (t : Computation α γ) (r : Except (Error α) β) : Prop :=
  t.run = some (r.map view)

theorem follows_ok (b : β) : Follows view (pure (view b) : Computation α γ) (.ok b) := rfl

/-- A result that the matrix stores. -/
theorem follows_table {m : Matrix α} {t : Table α} (h : m.table = t) :
    Follows Matrix.table (pure t : Computation α (Table α)) (.ok m) := h ▸ follows_ok m

theorem follows_error (err : Error α) :
    Follows view (throw err : Computation α γ) (.error err) := rfl

theorem follows_settled (r : Except (Error α) β) : Follows id (settled r) r := by
  rcases r with err | b
  · rfl
  · rfl

/-- What is found within an array is computed with. -/
theorem within_bind {o : Option β} {b : β} (h : o = some b) (f : β → Computation α γ) :
    (within o >>= f) = f b := by
  rw [h]
  rfl

/-- **A sequence follows a sequence.** -/
theorem Follows.bind {f : γ → Computation α γ'} {g : β → Except (Error α) β'}
    (ht : Follows view t r) (hf : ∀ b, r = .ok b → Follows view' (f (view b)) (g b)) :
    Follows view' (t >>= f) (r >>= g) := by
  rcases r with err | b
  · exact congrArg (· >>= ExceptT.bindCont f) ht
  · exact (congrArg (· >>= ExceptT.bindCont f) ht).trans (hf b rfl)

/-- **A loop follows a loop**, if each step does under what holds before the steps that are left. -/
theorem Follows.foldlM {δ : Type} {f : γ → δ → Computation α γ} {g : β → δ → Except (Error α) β}
    {P : List δ → β → Prop} (hstep : ∀ x l b, P (x :: l) b →
      Follows view (f (view b) x) (g b x) ∧ ∀ b', g b x = .ok b' → P l b')
    {l : List δ} {b : β} (h : P l b) :
    Follows view (l.foldlM f (view b)) (l.foldlM g b) ∧ ∀ b', l.foldlM g b = .ok b' → P [] b' := by
  induction l generalizing b with
  | nil => exact ⟨follows_ok b, fun b' hb' => Except.ok.inj hb' ▸ h⟩
  | cons x l ih =>
    obtain ⟨hx, hnext⟩ := hstep x l b h
    rw [List.foldlM_cons, List.foldlM_cons]
    refine ⟨hx.bind fun b' hb' => (ih (hnext b' hb')).1, fun last hlast => ?_⟩
    obtain ⟨b', hb', hlast⟩ := bind_eq_ok.mp hlast
    exact (ih (hnext b' hb')).2 last hlast

/-- An operation that checks its arguments follows one that makes the same check. -/
theorem follows_dite {p q : Prop} [Decidable p] [Decidable q] (hpq : p ↔ q) {g : q → β}
    {err : Error α} (h : ∀ hq : q, Follows view t (.ok (g hq))) :
    Follows view (if p then t else throw err) (if hq : q then .ok (g hq) else .error err) := by
  by_cases hq : q
  · rw [if_pos (hpq.mpr hq), dif_pos hq]
    exact h hq
  · rw [if_neg (fun hp => hq (hpq.mp hp)), dif_neg hq]
    exact follows_error err

end Follows

/-! ## Constructors and copies -/

section Copies

variable {α : Type}

theorem follows_new (rows cols : ℕ) (data : Array α) :
    Follows Matrix.table (new rows cols data) (Matrix.ofData rows cols data) := by
  rw [new, Matrix.ofData]
  split
  · exact follows_dite Iff.rfl fun _ => follows_ok _
  · exact follows_error _

/-- A matrix fills its shape. -/
theorem filled_table (m : Matrix α) :
    filled m.rows m.cols m.data = (return m.table : Computation α (Table α)) :=
  if_pos m.size_eq

theorem follows_requireColumn (op : Operation) (m : Matrix α) :
    Follows id (requireColumn op m.table) (m.requireColumn op) :=
  follows_dite (g := fun _ => ()) Iff.rfl fun _ => follows_ok ()

/-- The entries of columns are appended in order. -/
theorem follows_appendColumns (vs : List (Matrix α)) (data : Array α) :
    Follows id ((vs.map Matrix.table).foldlM appendColumn data) (do
      vs.forM (Matrix.requireColumn .stackColumns)
      return data ++ vs.toArray.flatMap Matrix.data) := by
  induction vs generalizing data with
  | nil =>
    have hnil : data ++ ([] : List (Matrix α)).toArray.flatMap Matrix.data = data := by simp
    rw [hnil]
    exact follows_ok data
  | cons v vs ih =>
    have hcons : (v :: vs).toArray.flatMap Matrix.data =
        v.data ++ vs.toArray.flatMap Matrix.data := by simp
    rw [List.map_cons, List.foldlM_cons, appendColumn, List.forM, bind_assoc, bind_assoc, hcons,
      ← Array.append_assoc]
    refine (follows_requireColumn .stackColumns v).bind fun _ _ => ?_
    rw [pure_bind]
    exact ih (data ++ v.data)

theorem follows_stackColumns (vs : List (Matrix α)) :
    Follows Matrix.table (stackColumns (vs.map Matrix.table)) (Matrix.stackColumns vs) := by
  rw [stackColumns, Matrix.stackColumns, List.isEmpty_map]
  by_cases hvs : vs.isEmpty
  · rw [if_pos hvs, if_pos hvs]
    exact follows_error _
  · rw [if_neg hvs, if_neg hvs]
    have hdata : (do
        vs.forM (Matrix.requireColumn .stackColumns)
        return Matrix.column (vs.toArray.flatMap Matrix.data)) = ((do
        vs.forM (Matrix.requireColumn .stackColumns)
        return #[] ++ vs.toArray.flatMap Matrix.data) >>= fun data =>
          (.ok (Matrix.column data) : Except (Error α) (Matrix α))) := by
      rw [bind_assoc, Array.empty_append]
      rfl
    rw [hdata]
    exact (follows_appendColumns vs #[]).bind fun data _ => follows_ok (Matrix.column data)

/-- One more table under others that are as wide as the first. -/
theorem follows_appendRows {first acc : Matrix α} (hacc : acc.cols = first.cols) (m : Matrix α) :
    Follows Matrix.table (appendRows first.table acc.table m.table)
      (Matrix.placeBelow (fun m => .mismatch .stack first.shape m.shape) acc m) := by
  refine follows_dite (Eq.congr_left hacc.symm) fun h => ?_
  exact congrArg (fun cols => some (Except.ok (Table.mk _ cols _))) hacc.symm

theorem cols_of_placeBelow {err : Matrix α → Error α} {acc m both : Matrix α}
    (h : Matrix.placeBelow err acc m = .ok both) : both.cols = acc.cols := by
  rw [Matrix.placeBelow] at h
  split at h
  · rw [← Except.ok.inj h]
    rfl
  · cases h

theorem follows_stack (ms : List (Matrix α)) :
    Follows Matrix.table (stack (ms.map Matrix.table)) (Matrix.stack ms) := by
  rcases ms with _ | ⟨first, rest⟩
  · exact follows_error _
  · have hfirst : appendRows first.table ⟨0, first.table.cols, #[]⟩ first.table =
        pure first.table := by
      rw [appendRows, if_pos rfl, Nat.zero_add, Array.empty_append]
    rw [Matrix.stack_cons, List.map_cons, stack, List.foldlM_cons, hfirst, pure_bind,
      List.foldlM_map]
    refine (Follows.foldlM (P := fun _ acc => acc.cols = first.cols) (fun m _ acc hacc => ?_) rfl).1
    exact ⟨follows_appendRows hacc m, fun both hboth => (cols_of_placeBelow hboth).trans hacc⟩

end Copies

/-! ## Entry by entry -/

section Entries

variable {α : Type} [Scalar α]

/-- **A part of a matrix** is copied row by row. -/
theorem follows_slice (m : Matrix α) (row col rows cols : ℕ) :
    Follows Matrix.table (slice m.table row col rows cols) (m.slice row col rows cols) := by
  refine follows_dite Iff.rfl fun hfit => ?_
  let entry (i j : ℕ) : α := m.coeff (row + i) (col + j)
  have hstep : ∀ r, row ≤ r → r < row + rows →
      appendRange m.table col cols (cells (r - row) cols entry) r =
        some (cells (r + 1 - row) cols entry) := by
    intro r hlo hhi
    have hpart : part m.data (r * m.cols + col) (r * m.cols + col + cols) =
        some (Array.ofFn fun j : Fin cols => entry (r - row) j) := by
      simp only [entry, Nat.add_sub_of_le hlo]
      rw [data_eq_cells]
      exact part_cells (hhi.trans_le hfit.1) hfit.2
    rw [appendRange, Matrix.data_table, Matrix.cols_table, hpart, Nat.succ_sub hlo, cells_succ]
    rfl
  have hloop := foldlM_span (fun r => cells (r - row) cols entry) (Nat.le_add_right row rows) hstep
  rw [Nat.sub_self, cells_zero, Nat.add_sub_cancel_left] at hloop
  rw [within_bind hloop]
  refine follows_table (table_eq rfl fun i hi j hj => ?_)
  exact (Matrix.coeff_ofFn hi hj).trans (Matrix.coeff_of_lt ..).symm

/-- One more place with its final entry, after those that have theirs already. -/
theorem ite_done {β : Type} {now before done : Prop} [Decidable now] [Decidable before]
    [Decidable done] {v last start : β} (hdone : done ↔ now ∨ before) (hv : now → v = last) :
    (if now then v else if before then last else start) = if done then last else start := by
  by_cases hnow : now
  · rw [if_pos hnow, if_pos (hdone.mpr (.inl hnow)), hv hnow]
  · rw [if_neg hnow]
    exact if_congr (hdone.trans (or_iff_right hnow)).symm rfl rfl

/-- A column is written over a diagonal of zeros. -/
theorem follows_diag (v : Matrix α) : Follows Matrix.table (diag v.table) v.diag := by
  refine follows_dite (q := v.cols = 1) Iff.rfl fun hv => ?_
  let entry (n i j : ℕ) : α := if i = j ∧ i < n then v.coeff i 0 else 0
  have hstep : ∀ i, 0 ≤ i → i < v.rows →
      writeDiagonal v.table (cells v.rows v.rows (entry i)) i =
        some (cells v.rows v.rows (entry (i + 1))) := by
    intro i _ hi
    have hread : v.data[i]? = some (v.coeff i 0) := by
      have h := getElem?_cells (g := v.coeff) (j := 0) hi (hv.symm ▸ Nat.one_pos)
      rwa [← data_eq_cells, hv, Nat.mul_one, Nat.add_zero] at h
    rw [writeDiagonal, Matrix.data_table, Matrix.rows_table, hread]
    refine (write_cells hi hi _).trans (congrArg some (cells_congr fun r _ c _ => ?_))
    exact ite_done (by omega) fun hnow => by rw [hnow.1]
  have hloop := foldlM_span (fun n => cells v.rows v.rows (entry n)) (Nat.zero_le v.rows) hstep
  have hstart : (zeros v.rows v.rows : Table α).data = cells v.rows v.rows (entry 0) := by
    simp only [entry, Nat.not_lt_zero, and_false, if_false]
    exact replicate_eq_cells ..
  rw [Matrix.rows_table, hstart, within_bind hloop]
  refine follows_table (table_eq rfl fun i hi j hj => ?_)
  rw [Matrix.coeff_ofFn hi hj, Matrix.entry_eq_coeff]
  exact if_congr (by rw [Fin.mk.injEq]; exact (and_iff_left hi).symm) rfl rfl

/-- **Every entry is written across the diagonal.** -/
theorem transpose_table (m : Matrix α) : transpose m.table = some m.transpose.table := by
  let entry (n i j : ℕ) : α := if j < n then m.coeff j i else 0
  have hrow : ∀ r, 0 ≤ r → r < m.rows →
      (span 0 m.cols).foldlM (writeAcross m.table r) (cells m.cols m.rows (entry r)) =
        some (cells m.cols m.rows (entry (r + 1))) := by
    intro r _ hr
    -- within row `r`, the columns below `n` are done
    let among (n i j : ℕ) : α := if j < r ∨ j = r ∧ i < n then m.coeff j i else 0
    have hstep : ∀ c, 0 ≤ c → c < m.cols →
        writeAcross m.table r (cells m.cols m.rows (among c)) c =
          some (cells m.cols m.rows (among (c + 1))) := by
      intro c _ hc
      have hread : m.data[r * m.cols + c]? = some (m.coeff r c) := by
        rw [data_eq_cells]
        exact getElem?_cells hr hc
      rw [writeAcross, Matrix.data_table, Matrix.rows_table, Matrix.cols_table, hread]
      refine (write_cells hc hr _).trans (congrArg some (cells_congr fun i _ j _ => ?_))
      exact ite_done (by omega) fun hnow => by rw [hnow.1, hnow.2]
    have hloop := foldlM_span (fun n => cells m.cols m.rows (among n)) (Nat.zero_le m.cols) hstep
    have hstart : cells m.cols m.rows (entry r) = cells m.cols m.rows (among 0) := by
      simp only [entry, among, Nat.not_lt_zero, and_false, or_false]
    have hend : cells m.cols m.rows (among m.cols) = cells m.cols m.rows (entry (r + 1)) :=
      cells_congr fun i hi j _ => if_congr (by omega) rfl rfl
    rw [hstart, hloop, hend]
  have hloop := foldlM_span (f := fun data r => (span 0 m.cols).foldlM (writeAcross m.table r) data)
    (fun n => cells m.cols m.rows (entry n)) (Nat.zero_le m.rows) hrow
  have hstart : Array.replicate m.data.size 0 = cells m.cols m.rows (entry 0) := by
    rw [m.size_eq, Nat.mul_comm, replicate_eq_cells]
    simp only [entry, Nat.not_lt_zero, if_false]
  have hend : m.transpose.table = ⟨m.cols, m.rows, cells m.cols m.rows (entry m.rows)⟩ := by
    refine table_eq rfl fun i hi j hj => ?_
    exact (Matrix.coeff_ofFn hi hj).trans ((Matrix.coeff_of_lt hj hi).symm.trans (if_pos hj).symm)
  rw [transpose, Matrix.data_table, Matrix.rows_table, Matrix.cols_table, hstart, hloop, hend]
  rfl

/-- A table made entry by entry stores the matrix made of the same entries. -/
theorem fill_table {rows cols : ℕ} {f : ℕ → ℕ → Option α} {g : Fin rows → Fin cols → α}
    (h : ∀ (i : Fin rows) (j : Fin cols), f i j = some (g i j)) :
    fill rows cols f = some (Matrix.ofFn rows cols g).table := by
  have hentry : ∀ i < rows, ∀ j < cols, f i j = some ((Matrix.ofFn rows cols g).coeff i j) :=
    fun i hi j hj => (h ⟨i, hi⟩ ⟨j, hj⟩).trans (congrArg some (Matrix.coeff_ofFn hi hj).symm)
  rw [fill_eq hentry]
  exact congrArg some (table_eq (m := Matrix.ofFn rows cols g) rfl fun _ _ _ _ => rfl).symm

theorem table_zeros (rows cols : ℕ) :
    (Matrix.zeros rows cols : Matrix α).table = zeros rows cols := by
  rw [zeros, replicate_eq_cells]
  exact table_eq rfl fun i hi j hj => Matrix.coeff_ofFn hi hj

theorem table_ones (n : ℕ) : (Matrix.ones n : Matrix α).table = ones n := by
  have hcells : Array.replicate n (1 : α) = cells n 1 fun _ _ => 1 := by
    rw [← replicate_eq_cells, Nat.mul_one]
  rw [ones, column, Array.size_replicate, hcells]
  exact table_eq rfl fun i hi j hj => Matrix.coeff_ofFn hi hj

theorem identity_table (n : ℕ) : (identity n : Option (Table α)) =
    some (Matrix.identity n : Matrix α).table :=
  fill_table fun _ _ => congrArg some (if_congr Fin.ext_iff.symm rfl rfl)

end Entries

/-! ## Arithmetic -/

section Arithmetic

variable {α : Type} [Scalar α]

/-- An entry of joined matrices. -/
theorem coeff_zipWith (f : α → α → α) {a b : Matrix α} (hr : a.rows = b.rows)
    (hc : a.cols = b.cols) {i j : ℕ} (hi : i < a.rows) (hj : j < a.cols) :
    (Matrix.zipWith f a b hr hc).coeff i j = f (a.coeff i j) (b.coeff i j) := by
  rw [Matrix.coeff_of_lt (m := a) hi hj, Matrix.coeff_of_lt (m := b) (hr ▸ hi) (hc ▸ hj)]
  exact Matrix.coeff_ofFn hi hj

/-- **Joined entry by entry**: the joined arrays are as long as the arrays. -/
theorem data_zipWith (f : α → α → α) (a b : Matrix α) (hr : a.rows = b.rows)
    (hc : a.cols = b.cols) : (Matrix.zipWith f a b hr hc).data = Array.zipWith f a.data b.data := by
  have hsize : b.data.size = a.data.size := by rw [a.size_eq, b.size_eq, hr, hc]
  have hcells : (Matrix.zipWith f a b hr hc).data =
      cells a.rows a.cols fun i j => f (a.coeff i j) (b.coeff i j) :=
    congrArg Table.data
      (table_eq (m := Matrix.zipWith f a b hr hc) rfl fun _ hi _ hj => coeff_zipWith f hr hc hi hj)
  refine hcells.trans (eq_cells ?_ fun i hi j hj => ?_).symm
  · rw [Array.size_zipWith, hsize, Nat.min_self, a.size_eq]
  · have hb : b.data[i * a.cols + j]? = some (b.coeff i j) := by
      rw [data_eq_cells b, hc]
      exact getElem?_cells (hr ▸ hi) (hc ▸ hj)
    rw [Array.getElem?_zipWith, data_eq_cells a, getElem?_cells hi hj, hb]

theorem follows_zipWith (op : Operation) (f : α → α → α) (a b : Matrix α) :
    Follows Matrix.table (zipWith op f a.table b.table) (Matrix.zipWith? op f a b) :=
  follows_dite Prod.ext_iff fun h => follows_table (congrArg (Table.mk a.rows a.cols)
    (data_zipWith f a b h.1 h.2))

/-- The second check finds nothing. -/
theorem follows_hadamard (a b : Matrix α) :
    Follows Matrix.table (hadamard a.table b.table) (a.hadamard b) := by
  refine follows_dite Prod.ext_iff fun h => ?_
  rw [Matrix.data_table, Matrix.data_table, ← data_zipWith _ a b h.1 h.2]
  exact filled_table (Matrix.zipWith (· * ·) a b h.1 h.2)

theorem follows_dot (a b : Matrix α) : Follows id (dot a.table b.table) (a.dot b) := by
  refine (follows_requireColumn .dot a).bind fun _ _ => ?_
  exact follows_dite (q := a.shape = b.shape) (g := fun _ => _) Iff.rfl fun _ => follows_ok _

end Arithmetic

end InteriorPoint.Table
