import Mathlib
import InteriorPoint.Proofs.Boundary
import InteriorPoint.Proofs.Curvature

/-!
# Proofs/Matrix/Reorder — the same matrix with rows and columns in another order

`Reordered ρ κ a b` says that row `i` and column `j` of `a` are row `ρ i` and column `κ j` of `b`.
Over exact scalars every operation on matrices keeps to it, and what reads all entries of a column
at once, a norm or the step to the boundary, does not see the order at all.
-/

namespace InteriorPoint.Matrix

open Equiv (Perm)

variable {K : Type} [ExactScalar K] {m n k : ℕ} {ρ : Perm (Fin m)} {κ : Perm (Fin n)}
  {τ : Perm (Fin k)} {a a' b b' c c' v v' : Matrix K}

/-- **One matrix with the rows and columns of another in a different order.** -/
structure Reordered (ρ : Perm (Fin m)) (κ : Perm (Fin n)) (a b : Matrix K) : Prop where
  left : a.shape = (m, n)
  right : b.shape = (m, n)
  coeff : ∀ (i : Fin m) (j : Fin n), b.coeff (ρ i) (κ j) = a.coeff i j

/-- One column with the entries of another in a different order. -/
abbrev Permuted (ρ : Perm (Fin m)) (a b : Matrix K) : Prop := Reordered ρ (1 : Perm (Fin 1)) a b

namespace Reordered

theorem symm (h : Reordered ρ κ a b) : Reordered ρ.symm κ.symm b a := by
  refine ⟨h.right, h.left, fun i j => ?_⟩
  rw [← h.coeff, Equiv.apply_symm_apply, Equiv.apply_symm_apply]

/-- The order that moves nothing. -/
theorem eq_of_one (h : Reordered (1 : Perm (Fin m)) (1 : Perm (Fin n)) a b) : a = b := by
  obtain ⟨rfl, rfl⟩ := shape_eq_iff.mp h.left
  obtain ⟨hrows, hcols⟩ := shape_eq_iff.mp h.right
  refine ext hrows.symm hcols.symm fun i j => ?_
  rw [← coeff_val, ← coeff_val]
  exact (h.coeff i j).symm

/-! ## Operations -/

theorem scale (h : Reordered ρ κ a b) (factor : K) :
    Reordered ρ κ (a.scale factor) (b.scale factor) := by
  refine ⟨h.left, h.right, fun i j => ?_⟩
  rw [coeff_scale, coeff_scale, h.coeff]

theorem transpose (h : Reordered ρ κ a b) : Reordered κ ρ a.transpose b.transpose := by
  refine ⟨shape_transpose_of_shape h.left, shape_transpose_of_shape h.right, fun i j => ?_⟩
  rw [coeff_transpose, coeff_transpose, h.coeff]

/-- **Joining entry by entry.** -/
theorem zipWith {f : K → K → K} (hf : f 0 0 = 0) {op op' : Operation} (ha : Reordered ρ κ a a')
    (hb : Reordered ρ κ b b') (hc : zipWith? op f a b = .ok c)
    (hc' : zipWith? op' f a' b' = .ok c') : Reordered ρ κ c c' := by
  refine ⟨(shape_of_zipWith?_eq_ok hc).trans ha.left, (shape_of_zipWith?_eq_ok hc').trans ha.right,
    fun i j => ?_⟩
  rw [coeff_zipWith hf hc, coeff_zipWith hf hc', ha.coeff, hb.coeff]

theorem add (ha : Reordered ρ κ a a') (hb : Reordered ρ κ b b') (hc : a.add b = .ok c)
    (hc' : a'.add b' = .ok c') : Reordered ρ κ c c' := ha.zipWith (add_zero 0) hb hc hc'

theorem subtract (ha : Reordered ρ κ a a') (hb : Reordered ρ κ b b') (hc : a.subtract b = .ok c)
    (hc' : a'.subtract b' = .ok c') : Reordered ρ κ c c' := ha.zipWith (sub_zero 0) hb hc hc'

theorem hadamard (ha : Reordered ρ κ a a') (hb : Reordered ρ κ b b') (hc : a.hadamard b = .ok c)
    (hc' : a'.hadamard b' = .ok c') : Reordered ρ κ c c' := ha.zipWith (mul_zero 0) hb hc hc'

/-- **Products**: the order in between is summed over. -/
theorem multiply (ha : Reordered ρ κ a a') (hb : Reordered κ τ b b') (hc : a.multiply b = .ok c)
    (hc' : a'.multiply b' = .ok c') : Reordered ρ τ c c' := by
  refine ⟨shape_of_multiply_eq_ok ha.left hb.left hc, shape_of_multiply_eq_ok ha.right hb.right hc',
    fun i j => ?_⟩
  rw [coeff_of_multiply_eq_ok ha.left hc, coeff_of_multiply_eq_ok ha.right hc', ← Equiv.sum_comp κ]
  exact Finset.sum_congr rfl fun l _ => by rw [ha.coeff, hb.coeff]

end Reordered

theorem reordered_identity (κ : Perm (Fin n)) :
    Reordered κ κ (identity n : Matrix K) (identity n) := by
  refine ⟨rfl, rfl, fun i j => ?_⟩
  rw [coeff_identity (κ i).isLt (κ j).isLt, coeff_identity i.isLt j.isLt]
  simp only [← Fin.ext_iff, κ.apply_eq_iff_eq]

/-! ## Columns -/

namespace Permuted

theorem vec_apply (h : Permuted ρ a b) (i : Fin m) : b.vec m (ρ i) = a.vec m i := h.coeff i 0

theorem vec_comp (h : Permuted ρ a b) : b.vec m ∘ ρ = a.vec m := funext h.vec_apply

/-- Columns whose entries are those of each other are permuted. -/
theorem of_vec (ha : a.shape = (m, 1)) (hb : b.shape = (m, 1))
    (h : ∀ i, b.vec m (ρ i) = a.vec m i) : Permuted ρ a b := by
  refine ⟨ha, hb, fun i j => ?_⟩
  rw [Subsingleton.elim j 0]
  exact h i

theorem ones (ρ : Perm (Fin m)) : Permuted ρ (Matrix.ones m : Matrix K) (Matrix.ones m) :=
  of_vec rfl rfl fun i => (coeff_ones (ρ i).isLt).trans (coeff_ones i.isLt).symm

/-- The same entries are stored, in another order. -/
theorem perm_data (h : Permuted ρ a b) : b.data.toList.Perm a.data.toList := by
  rw [toList_data_of_shape h.left, toList_data_of_shape h.right, ← h.vec_comp, ← List.map_map]
  exact (ρ.map_finRange_perm.map _).symm

/-- What holds of all entries does so in any order. -/
theorem forall_mem_iff (h : Permuted ρ a b) {P : K → Prop} :
    (∀ w ∈ b.data, P w) ↔ ∀ w ∈ a.data, P w := by
  simp only [← Array.mem_toList_iff, h.perm_data.mem_iff]

/-- Entries of two columns that stand side by side stay so. -/
theorem perm_zip (ha : Permuted ρ a a') (hb : Permuted ρ b b') :
    (a'.data.zip b'.data).toList.Perm (a.data.zip b.data).toList := by
  have hpairs : (fun i => (a.vec m i, b.vec m i)) =
      (fun i => (a'.vec m i, b'.vec m i)) ∘ ρ := by
    funext i
    exact Prod.ext (ha.vec_apply i).symm (hb.vec_apply i).symm
  rw [Array.toList_zip, Array.toList_zip, toList_data_of_shape ha.left,
    toList_data_of_shape ha.right, toList_data_of_shape hb.left, toList_data_of_shape hb.right,
    List.zip_map', List.zip_map', hpairs, ← List.map_map]
  exact (ρ.map_finRange_perm.map _).symm

/-- **A sum over all entries** does not see their order. -/
theorem foldl_add_eq (h : Permuted ρ a b) (f : K → K) (start : K) :
    b.data.foldl (fun acc w => acc + f w) start = a.data.foldl (fun acc w => acc + f w) start := by
  rw [← Array.foldl_toList, ← Array.foldl_toList, ExactScalar.foldl_add_eq,
    ExactScalar.foldl_add_eq, (h.perm_data.map f).sum_eq]

theorem normTwo_eq (h : Permuted ρ a b) : b.normTwo = a.normTwo :=
  congrArg Scalar.sqrt (h.foldl_add_eq (fun w => w * w) 0)

theorem sumLn_eq (h : Permuted ρ a b) : b.sumLn = a.sumLn := by
  rw [sumLn, sumLn, sum, sum, Array.foldl_map, Array.foldl_map]
  exact h.foldl_add_eq Scalar.ln (-0)

theorem normInf_eq (h : Permuted ρ a b) : b.normInf = a.normInf := by
  have hstep : (fun acc w : K => if Scalar.isNaN acc then acc else if Scalar.isNaN w then w
      else Scalar.max acc (Scalar.abs w)) = fun acc w => max acc |w| := by
    funext acc w
    rw [← scalarMax_eq, ← ExactScalar.scalarAbs_eq]
    rfl
  have hcomm : RightCommutative fun acc w : K => max acc |w| :=
    ⟨fun acc u w => max_right_comm acc |u| |w|⟩
  rw [normInf, normInf, hstep, ← Array.foldl_toList, ← Array.foldl_toList]
  exact h.perm_data.foldl_eq 0

/-- **The step to the boundary** does not see the order of the entries. -/
theorem toBoundary_eq (ha : Permuted ρ a a') (hb : Permuted ρ b b') (tau : K) :
    toBoundary a' b' tau = toBoundary a b tau := by
  have hcomm : RightCommutative fun (alpha : K) (w : K × K) => limitStep tau alpha w.1 w.2 := by
    refine ⟨fun alpha u w => ?_⟩
    simp only [limitStep, scalarMin_eq]
    split_ifs
    · exact min_right_comm ..
    all_goals rfl
  have hfold := (ha.perm_zip hb).foldl_eq (f := fun alpha w => limitStep tau alpha w.1 w.2) 1
  rw [Array.foldl_toList, Array.foldl_toList] at hfold
  rw [toBoundary, toBoundary, if_pos (ha.right.trans hb.right.symm),
    if_pos (ha.left.trans hb.left.symm)]
  simp only [hfold]

theorem isNull_eq (h : Permuted ρ a b) : Curvature.isNull b = Curvature.isNull a := by
  rw [Curvature.isNull, Curvature.isNull, ← Array.all_toList, ← Array.all_toList]
  exact h.perm_data.all_eq

theorem dot_eq (ha : Permuted ρ a a') (hb : Permuted ρ b b') {d d' : K} (h : a.dot b = .ok d)
    (h' : a'.dot b' = .ok d') : d' = d := by
  rw [eq_of_dot_eq_ok ha.left h, eq_of_dot_eq_ok ha.right h', ← ha.vec_comp, ← hb.vec_comp]
  exact (Equiv.sum_comp ρ fun i => a'.vec m i * b'.vec m i).symm

theorem outer (h : Permuted ρ v v') {d : K} (hc : Curvature.outer v d = .ok c)
    (hc' : Curvature.outer v' d = .ok c') : Reordered ρ ρ c c' := by
  obtain ⟨m₁, hm₁, hshape⟩ := Curvature.exists_outer h.left d
  obtain ⟨m₂, hm₂, hshape'⟩ := Curvature.exists_outer h.right d
  obtain rfl := Except.ok.inj (hc.symm.trans hm₁)
  obtain rfl := Except.ok.inj (hc'.symm.trans hm₂)
  refine ⟨hshape, hshape', fun i j => ?_⟩
  have hi : v'.coeff (ρ i) 0 = v.coeff i 0 := h.vec_apply i
  have hj : v'.coeff (ρ j) 0 = v.coeff j 0 := h.vec_apply j
  rw [Curvature.coeff_of_outer_eq_ok hc, Curvature.coeff_of_outer_eq_ok hc', hi, hj]

end Permuted

/-- **The damped update** of a model of curvature, in another order. -/
theorem Reordered.update {s s' y y' : Matrix K} (hs : Permuted κ s s') (hy : Permuted κ y y')
    (ha : Reordered κ κ a a') (hc : Curvature.update s y a = .ok c)
    (hc' : Curvature.update s' y' a' = .ok c') : Reordered κ κ c c' := by
  obtain ⟨t⟩ := Curvature.nonempty_parts hs.left hy.left ha.left
  obtain ⟨t'⟩ := Curvature.nonempty_parts hs.right hy.right ha.right
  have hqs : Permuted κ t.qs t'.qs := ha.multiply hs t.qs_eq t'.qs_eq
  have hsqs : t'.sqs = t.sqs := hs.dot_eq hqs t.sqs_eq t'.sqs_eq
  have hsy : t'.sy = t.sy := hs.dot_eq hy t.sy_eq t'.sy_eq
  have hr' := t'.r_eq
  have hdown' := t'.down_eq
  rw [hsqs, hsy] at hr'
  rw [hsqs] at hdown'
  have hr : Permuted κ t.r t'.r := (hy.scale _).add (hqs.scale _) t.r_eq hr'
  have hsr : t'.sr = t.sr := hs.dot_eq hr t.sr_eq t'.sr_eq
  have hup' := t'.up_eq
  rw [hsr] at hup'
  have hnext : Reordered κ κ t.next t'.next :=
    (ha.subtract (hqs.outer t.down_eq hdown') t.lowered_eq t'.lowered_eq).add
      (hr.outer t.up_eq hup') t.next_eq t'.next_eq
  rw [t.update_eq hs.left hy.left] at hc
  rw [t'.update_eq hs.right hy.right] at hc'
  simp only [bind_eq_ok, pure_eq_ok] at hc hc'
  obtain ⟨_, _, _, _, rfl⟩ := hc
  obtain ⟨_, _, _, _, rfl⟩ := hc'
  exact hnext

end InteriorPoint.Matrix
