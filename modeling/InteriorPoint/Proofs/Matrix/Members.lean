import Mathlib
import InteriorPoint.Matrix.Norms
import InteriorPoint.Proofs.Matrix.Shape

/-!
# Proofs/Matrix/Members — what is true of every entry of a result

A property of all entries does not depend on where they stand.  Each operation has a lemma that says
where an entry of its result comes from, and what passes from an entry to its parts passes from the
result to what it was made of (`forall_of_zipWith?`).  The checks of a matrix are read as statements
about all of its entries: `isFinite_iff`, `requireFinite_eq_ok_iff`.
-/

namespace InteriorPoint.Matrix

variable {α : Type} {a b c m : Matrix α} {v : α}

theorem get_mem_data (m : Matrix α) (i : Fin m.rows) (j : Fin m.cols) : m.get i j ∈ m.data :=
  Array.getElem_mem _

theorem exists_get_of_mem (hv : v ∈ m.data) : ∃ i j, v = m.get i j := by
  obtain ⟨k, hk, rfl⟩ := Array.getElem_of_mem hv
  have hlt : k < m.rows * m.cols := m.size_eq ▸ hk
  refine ⟨⟨k / m.cols, div_lt_rows hlt⟩, ⟨k % m.cols, mod_lt_cols hlt⟩, ?_⟩
  simp only [get, Nat.div_add_mod']

/-- A property of all entries, place by place. -/
theorem forall_mem_iff_get {P : α → Prop} : (∀ v ∈ m.data, P v) ↔ ∀ i j, P (m.get i j) := by
  refine ⟨fun h i j => h _ (get_mem_data m i j), fun h v hv => ?_⟩
  obtain ⟨i, j, rfl⟩ := exists_get_of_mem hv
  exact h i j

/-- Two matrices of one shape whose entries have a property in every place. -/
theorem forall_of_entries {P : α → Prop} (hshape : a.shape = b.shape)
    (h : ∀ i j, P (a.get i j) ∧
      P (b.get (i.cast (congrArg Prod.fst hshape)) (j.cast (congrArg Prod.snd hshape)))) :
    (∀ v ∈ a.data, P v) ∧ ∀ v ∈ b.data, P v := by
  rw [forall_mem_iff_get, forall_mem_iff_get]
  exact ⟨fun i j => (h i j).1, fun i j => (h (i.cast (congrArg Prod.fst hshape).symm)
    (j.cast (congrArg Prod.snd hshape).symm)).2⟩

theorem exists_of_mem_ofFn {rows cols : ℕ} {f : Fin rows → Fin cols → α}
    (hv : v ∈ (ofFn rows cols f).data) : ∃ i j, v = f i j := by
  obtain ⟨k, hk⟩ := Array.mem_ofFn.mp hv
  exact ⟨_, _, hk.symm⟩

/-- An entry of a matrix that was joined from two comes from an entry of each. -/
theorem exists_of_mem_zipWith? {op : Operation} {f : α → α → α}
    (h : zipWith? op f a b = .ok c) (hv : v ∈ c.data) : ∃ u ∈ a.data, ∃ w ∈ b.data, v = f u w := by
  obtain ⟨_, rfl⟩ := eq_of_zipWith?_eq_ok h
  obtain ⟨i, j, rfl⟩ := exists_of_mem_ofFn hv
  exact ⟨_, get_mem_data .., _, get_mem_data .., rfl⟩

/-- **What passes from a joined entry to both of its parts** passes from a joined matrix to both of
its parts. -/
theorem forall_of_zipWith? {P : α → Prop} {op : Operation} {f : α → α → α}
    (hf : ∀ {u w}, P (f u w) → P u ∧ P w) (h : zipWith? op f a b = .ok c)
    (hc : ∀ v ∈ c.data, P v) : (∀ v ∈ a.data, P v) ∧ ∀ v ∈ b.data, P v := by
  obtain ⟨hshape, rfl⟩ := eq_of_zipWith?_eq_ok h
  rw [forall_mem_iff_get] at hc
  exact forall_of_entries hshape fun i j => hf ((congrArg P (get_ofFn ..)).mp (hc i j))

/-- An entry and the entry in its place in another matrix of the same shape stand beside each other
in the two arrays. -/
theorem get_mem_zip (hr : a.rows = b.rows) (hc : a.cols = b.cols) (i : Fin a.rows)
    (j : Fin a.cols) : (a.get i j, b.get (i.cast hr) (j.cast hc)) ∈ a.data.zip b.data := by
  have hlt : i.val * a.cols + j.val < (a.data.zip b.data).size := by
    have hsize : b.data.size = a.data.size := by rw [b.size_eq, a.size_eq, hr, hc]
    rw [Array.size_zip, hsize, Nat.min_self, a.size_eq]
    exact place_lt i.isLt j.isLt
  have hplace : (a.get i j, b.get (i.cast hr) (j.cast hc)) =
      (a.data.zip b.data)[i.val * a.cols + j.val] := by
    rw [Array.getElem_zip]
    simp only [get, Fin.val_cast, hc]
  rw [hplace]
  exact Array.getElem_mem hlt

/-- The entries of a part of a matrix are entries of the matrix. -/
theorem mem_of_mem_slice {row col rows cols : ℕ} (h : m.slice row col rows cols = .ok c)
    (hv : v ∈ c.data) : v ∈ m.data := by
  rw [slice] at h
  split at h
  · obtain rfl := Except.ok.inj h
    obtain ⟨i, j, rfl⟩ := exists_of_mem_ofFn hv
    exact get_mem_data ..
  · exact nomatch h

/-- An entry of a vector after a step comes from an entry and its change. -/
theorem exists_of_mem_add_scale [Scalar α] {factor : α} (h : a.add (b.scale factor) = .ok c)
    (hv : v ∈ c.data) : ∃ w ∈ a.data.zip b.data, v = w.1 + w.2 * factor := by
  obtain ⟨hshape, rfl⟩ := eq_of_zipWith?_eq_ok h
  obtain ⟨i, j, rfl⟩ := exists_of_mem_ofFn hv
  exact ⟨_, get_mem_zip (b := b) (congrArg Prod.fst hshape) (congrArg Prod.snd hshape) i j,
    congrArg (_ + ·) (get_map ..)⟩

/-! ## Finite entries -/

section Finite

variable [Scalar α] {q : Quantity}

theorem isFinite_iff : m.isFinite = true ↔ ∀ v ∈ m.data, Scalar.isFinite v = true :=
  Array.all_eq_true_iff_forall_mem

theorem firstNonFinite?_eq_none : m.firstNonFinite? = none ↔ m.isFinite = true := by
  rw [firstNonFinite?, Array.find?_eq_none, isFinite_iff]
  simp

/-- **A matrix is let through if all of its entries are finite.** -/
theorem requireFinite_eq_ok_iff : m.requireFinite q = .ok () ↔ m.isFinite = true := by
  rw [requireFinite, isFinite_iff]
  split
  · rename_i value hsome
    refine ⟨nofun, fun h => ?_⟩
    have hvalue := Array.find?_some hsome
    rw [h value (Array.mem_of_find?_eq_some hsome)] at hvalue
    exact nomatch hvalue
  · rename_i hnone
    refine ⟨fun _ v hv => ?_, fun _ => rfl⟩
    simpa using Array.find?_eq_none.mp hnone v hv

/-- …and refused with the first entry that is not. -/
theorem eq_breakdown_of_requireFinite {err : Error α} (h : m.requireFinite q = .error err) :
    ∃ v, err = .breakdown q v ∧ Scalar.isFinite v = false := by
  rw [requireFinite] at h
  split at h
  · rename_i value hsome
    refine ⟨value, (Except.error.inj h).symm, ?_⟩
    simpa using Array.find?_some hsome
  · exact nomatch h

end Finite

end InteriorPoint.Matrix
