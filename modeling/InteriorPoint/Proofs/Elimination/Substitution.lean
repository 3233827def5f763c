import Mathlib
import InteriorPoint.Proofs.Elimination.Triangles

/-!
# Proofs/Elimination/Substitution — solving with the two triangles

Both substitutions sweep over the places of a vector and read, at each place, only places that the
sweep has left behind.  So every place ends up with a value that solves its row
(`get_sweep`), whichever way the sweep goes.

* `lower_mulVec_forward`, `upper_mulVec_backward` — each substitution solves with its triangle.
* `Factors.mulVec_substitute` — both together solve with the matrix.
-/

namespace InteriorPoint.Elimination

variable {K : Type} [ExactScalar K] {n : ℕ} {e : Elimination K n}

theorem subtractProducts_eq (row x : Vector K n) (start : K) (places : List (Fin n)) :
    subtractProducts row x start places = start - (places.map fun j => row.get j * x.get j).sum :=
  ExactScalar.foldl_sub_eq (fun j : Fin n => row.get j * x.get j) places start

/-- **A sweep that reads only places it has left behind** solves every row it visits. -/
theorem get_sweep (rows : Vector (Vector K n) n) {places : Fin n → List (Fin n)}
    (value : Fin n → K → K) (hself : ∀ i, i ∉ places i) {is : List (Fin n)}
    (his : is.Pairwise fun i j => i ≠ j ∧ j ∉ places i) (b : Vector K n) :
    let y := is.foldl (fun (x : Vector K n) (i : Fin n) =>
      x.set i (value i (subtractProducts (rows.get i) x (x.get i) (places i))) i.isLt) b
    (∀ i ∈ is, y.get i =
      value i (b.get i - ((places i).map fun j => (rows.get i).get j * y.get j).sum)) ∧
      ∀ i ∉ is, y.get i = b.get i := by
  induction is generalizing b with
  | nil => simp
  | cons i is ih =>
    obtain ⟨hi, his⟩ := List.pairwise_cons.mp his
    obtain ⟨b', hb', hhere, hthere⟩ : ∃ b' : Vector K n,
        b.set i (value i (subtractProducts (rows.get i) b (b.get i) (places i))) i.isLt = b' ∧
        b'.get i = value i (b.get i -
          ((places i).map fun j => (rows.get i).get j * b.get j).sum) ∧
        ∀ j, j ≠ i → b'.get j = b.get j := by
      refine ⟨_, rfl, ?_, fun j hj => ?_⟩
      · rw [Vector.get_eq_getElem, Vector.getElem_set_self, subtractProducts_eq]
      · exact Vector.getElem_set_ne _ _ fun h => hj (Fin.ext h.symm)
    obtain ⟨hvisited, hothers⟩ := ih his b'
    rw [List.foldl_cons, hb']
    refine ⟨List.forall_mem_cons.mpr ⟨?_, ?_⟩, ?_⟩
    · -- the head is not visited again, and neither are the places it reads
      rw [hothers i fun h => (hi i h).1 rfl, hhere]
      refine congrArg (fun sum => value i (b.get i - sum)) (congrArg List.sum ?_)
      refine List.map_congr_left fun j hj => congrArg ((rows.get i).get j * ·) ?_
      have hji : j ≠ i := fun h => hself i (h ▸ hj)
      rw [hothers j fun h => (hi j h).2 hj, hthere j hji]
    · intro j hj
      rw [hvisited j hj, hthere j (hi j hj).1.symm]
    · intro j hj
      rw [List.mem_cons, not_or] at hj
      rw [hothers j hj.2, hthere j hj.1]

/-! ## Forward and backward -/

/-- **Forward substitution solves with the unit lower triangle.** -/
theorem lower_mulVec_forward (e : Elimination K n) (b : Vector K n) :
    (e.lower n).mulVec (e.forward b).get = b.get := by
  have hself : ∀ i : Fin n, i ∉ (List.finRange n).filter (· < i) := by simp
  have horder : (List.finRange n).Pairwise fun i j =>
      i ≠ j ∧ j ∉ (List.finRange n).filter (· < i) := by
    refine (List.pairwise_lt_finRange n).imp fun hij => ⟨hij.ne, ?_⟩
    simp [hij.le]
  have hsweep := (get_sweep e.rows (fun _ v => v) hself horder b).1
  ext i
  have hi : (e.forward b).get i =
      b.get i - ∑ l, if l < i then e.entry i l * (e.forward b).get l else 0 := by
    rw [← ExactScalar.sum_filter_finRange]
    exact hsweep i (List.mem_finRange i)
  have hrow : ∀ l, e.lower n i l * (e.forward b).get l =
      (if l = i then (e.forward b).get l else 0) +
        if l < i then e.entry i l * (e.forward b).get l else 0 := by
    intro l
    rcases lt_trichotomy l i with hl | rfl | hl
    · simp [lower, hl, hl.ne]
    · simp [lower]
    · simp [lower, hl.ne', hl.not_gt]
  rw [Matrix.mulVec, dotProduct, Finset.sum_congr rfl fun l _ => hrow l, Finset.sum_add_distrib,
    Finset.sum_ite_eq' Finset.univ i, if_pos (Finset.mem_univ i)]
  exact eq_sub_iff_add_eq.mp hi

/-- **Backward substitution solves with the upper triangle**, if its diagonal is not zero. -/
theorem upper_mulVec_backward (hpivots : ∀ j : Fin n, e.entry j j ≠ 0) (b : Vector K n) :
    (e.upper n).mulVec (e.backward b).get = b.get := by
  have hself : ∀ i : Fin n, i ∉ below i := by simp [mem_below]
  have horder : (List.finRange n).reverse.Pairwise fun i j => i ≠ j ∧ j ∉ below i := by
    refine List.pairwise_reverse.mpr ((List.pairwise_lt_finRange n).imp fun hij => ?_)
    exact ⟨hij.ne', fun h => hij.not_gt (mem_below.mp h)⟩
  have hsweep := (get_sweep e.rows (fun i v => v / e.entry i i) hself horder b).1
  ext i
  have hi : (e.backward b).get i =
      (b.get i - ∑ j, if i < j then e.entry i j * (e.backward b).get j else 0) / e.entry i i := by
    rw [← ExactScalar.sum_filter_finRange]
    exact hsweep i (List.mem_reverse.mpr (List.mem_finRange i))
  have hrow : ∀ j, e.upper n i j * (e.backward b).get j =
      (if j = i then e.entry i i * (e.backward b).get j else 0) +
        if i < j then e.entry i j * (e.backward b).get j else 0 := by
    intro j
    rcases lt_trichotomy j i with hj | rfl | hj
    · simp [upper, hj, hj.ne, hj.not_gt]
    · simp [upper]
    · simp [upper, hj, hj.ne', hj.not_gt]
  rw [Matrix.mulVec, dotProduct, Finset.sum_congr rfl fun j _ => hrow j, Finset.sum_add_distrib,
    Finset.sum_ite_eq' Finset.univ i, if_pos (Finset.mem_univ i)]
  rw [eq_div_iff (hpivots i), mul_comm] at hi
  exact eq_sub_iff_add_eq.mp hi

/-- **Both substitutions solve with the matrix** that the triangles pack. -/
theorem Factors.mulVec_substitute {A : Fin n → Fin n → K} (h : Factors A e n) (b : Vector K n) :
    (Matrix.of A).mulVec (e.substitute b).get = b.get := by
  have hpivots : ∀ j : Fin n, e.entry j j ≠ 0 := fun j => h.pivots j j.isLt
  have hsolved : ((Matrix.of A).submatrix (fun i : Fin n => e.order.get i) id).mulVec
      (e.substitute b).get = fun i : Fin n => b.get (e.order.get i) := by
    rw [← h.product, ← Matrix.mulVec_mulVec, substitute, upper_mulVec_backward hpivots,
      lower_mulVec_forward]
    ext i
    simp
  ext i
  -- each row stands somewhere in the present order
  obtain ⟨i, rfl⟩ := (Finite.injective_iff_surjective.mp h.order) i
  exact congrFun hsolved i

end InteriorPoint.Elimination
