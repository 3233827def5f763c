import Mathlib
import InteriorPoint.Proofs.Formula
import InteriorPoint.Proofs.Matrix.Grid

/-!
# Proofs/Jacobian — one pass per input gives the matrix of partial derivatives

A pass in which input `j` moves with unit speed gives column `j`, so the stacked and transposed
passes are the Jacobian (`DualMap.jacobian_eq_ok`, for any arithmetic).  Over the reals the entries
are the partial derivatives of the functions that the expressions stand for.

* `forward_derivatives` — values, Jacobians and gradients of expressions built from constants and
  inputs are right wherever the expressions are smooth and no power has the least exponent; with one
  that has, the expression has no value.
* `least_power_refused` — such a power is smooth where it is refused.
-/

namespace InteriorPoint

/-! ## Stacking the passes -/

namespace Matrix

variable {α : Type} [Scalar α]

omit [Scalar α] in
theorem row_ofFn {cols : ℕ} (v : Fin cols → α) :
    row (Array.ofFn v) = ofFn 1 cols fun _ => v := by
  refine ext rfl Array.size_ofFn fun i j => ?_
  have hi : i.val = 0 := Nat.lt_one_iff.mp i.isLt
  refine Eq.trans ?_ (get_ofFn ..).symm
  simp only [get, row, hi, Nat.zero_mul, Nat.zero_add, Array.getElem_ofFn]
  rfl

omit [Scalar α] in
theorem transpose_ofFn {rows cols : ℕ} (f : Fin rows → Fin cols → α) :
    (ofFn rows cols f).transpose = ofFn cols rows fun i j => f j i :=
  congrArg (ofFn cols rows) (funext₂ fun _ _ => get_ofFn ..)

/-- One more row under a matrix of rows. -/
theorem above_row {rows cols : ℕ} (r : ℕ → Fin cols → α)
    (h : (ofFn rows cols fun i => r i).cols = (ofFn 1 cols fun _ => r rows).cols) :
    (ofFn rows cols fun i => r i).above (ofFn 1 cols fun _ => r rows) h =
      ofFn (rows + 1) cols fun i => r i := by
  refine ext rfl rfl fun i j => ?_
  refine Eq.trans ?_ (get_ofFn ..).symm
  rw [← coeff_val, coeff_above]
  split
  · rename_i hi
    exact coeff_ofFn hi j.isLt
  · rename_i hi
    have hlast : i.val = rows := le_antisymm (Nat.lt_succ_iff.mp i.isLt) (not_lt.mp hi)
    refine (coeff_ofFn (by rw [hlast, rows_ofFn, Nat.sub_self]; exact Nat.one_pos) j.isLt).trans ?_
    exact congrFun (congrArg r hlast.symm) _

theorem data_of_shape {m : Matrix α} {n : ℕ} (h : m.shape = (n, 1)) :
    m.data = Array.ofFn (m.vec n) := by
  rw [← Array.toList_inj, toList_data_of_shape h, Array.toList_ofFn, List.ofFn_eq_map]

end Matrix

namespace DualMap

variable {α : Type} [Scalar α] {f : DualMap α} {x : Matrix α} {n m : ℕ}

/-- One more pass under those that are stacked already. -/
def placePass (f : DualMap α) (x : Matrix α) (acc : Matrix α) (j : ℕ) :
    Except (Error α) (Matrix α) := do
  let next ← f.tangents x j
  if h : acc.cols = next.cols then return acc.above next h
  else throw (.mismatch .jacobian (acc.cols, x.rows) (next.cols, x.rows))

/-- The passes after the first one are stacked under it in their order. -/
theorem foldlM_placePass {r : ℕ → Fin m → α}
    (h : ∀ j < n, f.tangents x j = .ok (.ofFn 1 m fun _ => r j)) :
    ∀ k < n, ((List.range k).map Nat.succ).foldlM (placePass f x) (.ofFn 1 m fun i => r i) =
      .ok (.ofFn (k + 1) m fun i => r i)
  | 0, _ => rfl
  | k + 1, hk => by
    have hnext : placePass f x (.ofFn (k + 1) m fun i => r i) (k + 1) =
        .ok (.ofFn (k + 2) m fun i => r i) := by
      rw [placePass, h (k + 1) hk, ok_bind]
      exact (dif_pos rfl).trans (congrArg Except.ok (Matrix.above_row r rfl))
    rw [List.range_succ, List.map_append, List.foldlM_append,
      foldlM_placePass h k (Nat.lt_of_succ_lt hk), ok_bind, List.map_singleton, List.foldlM_cons,
      hnext]
    rfl

/-- **Every pass gives a column of the Jacobian.** -/
theorem jacobian_eq_ok (hx : x.shape = (n, 1)) {entry : Fin m → Fin n → α}
    (hnone : n = 0 → ∃ out, f #[] = .ok out ∧ out.size = m)
    (h : ∀ j : Fin n, f.tangents x j = .ok (.ofFn 1 m fun _ i => entry i j)) :
    f.jacobian x = .ok (.ofFn m n entry) := by
  obtain ⟨hrows, hcols⟩ := Matrix.shape_eq_iff.mp hx
  have hcolumn : x.requireColumn .jacobian = .ok () := if_pos hcols
  rw [jacobian, hcolumn, ok_bind]
  cases n with
  | zero =>
    obtain ⟨out, hout, rfl⟩ := hnone rfl
    simp only [hrows, List.range_zero, hout]
    exact congrArg Except.ok (Matrix.ext rfl rfl fun _ j => j.elim0)
  | succ k =>
    -- the passes are numbered from zero, so the rows are too
    let r : ℕ → Fin m → α := fun j i => entry i (Fin.ofNat (k + 1) j)
    have hr : ∀ j < k + 1, f.tangents x j = .ok (.ofFn 1 m fun _ => r j) := by
      intro j hj
      have hval : (Fin.ofNat (k + 1) j).val = j := Nat.mod_eq_of_lt hj
      have hpass := h (Fin.ofNat (k + 1) j)
      rwa [hval] at hpass
    have hfirst : f.tangents x 0 = .ok (.ofFn 1 m fun i => r i) := by
      rw [hr 0 k.succ_pos]
      refine congrArg Except.ok (congrArg (Matrix.ofFn 1 m) (funext fun i => ?_))
      rw [Fin.val_eq_zero i]
    have hrest := foldlM_placePass hr k k.lt_succ_self
    have hrange : List.range x.rows = 0 :: (List.range k).map Nat.succ := by
      rw [hrows, List.range_succ_eq_map]
    rw [hrange]
    change (do
      let first ← f.tangents x 0
      let stacked ← ((List.range k).map Nat.succ).foldlM (placePass f x) first
      return stacked.transpose) = _
    rw [hfirst, ok_bind, hrest, ok_bind, Matrix.transpose_ofFn]
    refine congrArg Except.ok (congrArg (Matrix.ofFn m (k + 1)) (funext₂ fun i j => ?_))
    exact congrArg (entry i) (Fin.ext (Nat.mod_eq_of_lt j.isLt))

end DualMap

/-! ## Several expressions -/

namespace VectorFormula

variable {α : Type} [Scalar α] {fs : List (Formula α)} {x : Matrix α} {n : ℕ}

/-- The results of expressions that have a value. -/
theorem map_outputs (shape : Shape) {v : Array (Dual α)} {d : Formula α → Dual α}
    (h : ∀ f ∈ fs, f.eval v = .ok (d f)) : (outputs shape fs).map v = .ok (fs.map d).toArray := by
  have heval : fs.mapM (Formula.eval v) = .ok (fs.map d) := by
    rw [mapM_eq_ok, List.forall₂_map_right_iff, List.forall₂_same]
    exact h
  rw [map, eval, heval]
  rfl

/-- **The Jacobian of expressions that have a value in every pass.** -/
theorem jacobian_outputs (shape : Shape) (hx : x.shape = (n, 1)) {d : Fin n → Formula α → Dual α}
    (hnone : n = 0 → ∃ out, (outputs shape fs).map #[] = .ok out ∧ out.size = fs.length)
    (h : ∀ j : Fin n, ∀ f ∈ fs, f.eval (DualMap.seeded x.data j) = .ok (d j f)) :
    (outputs shape fs).map.jacobian x =
      .ok (.ofFn fs.length n fun i j => (d j (fs.get i)).eps) := by
  refine DualMap.jacobian_eq_ok hx hnone fun j => ?_
  rw [DualMap.tangents, map_outputs shape (h j), ok_bind, ← Matrix.row_ofFn]
  refine congrArg (Except.ok ∘ Matrix.row) ?_
  have hentries := List.map_ofFn (f := fs.get) (g := fun f => (d j f).eps)
  rw [List.ofFn_get] at hentries
  rw [← Array.toList_inj, Array.toList_ofFn, List.map_toArray, List.map_map]
  exact hentries

end VectorFormula

/-! ## Expressions over the reals -/

/-- **The partial derivative** of a function with respect to one of its inputs. -/
noncomputable def partialDerivative {n : ℕ} (F : (Fin n → ℝ) → ℝ) (j : Fin n) (x : Fin n → ℝ) :
    ℝ :=
  deriv (fun t => F (Function.update x j t)) (x j)

section Real

variable {n : ℕ} {x : Fin n → ℝ} {F : (Fin n → ℝ) → ℝ} {L : (Fin n → ℝ) →L[ℝ] ℝ}

theorem partialDerivative_eq (h : HasFDerivAt F L x) (j : Fin n) :
    partialDerivative F j x = L (Pi.single j 1) := by
  have hx : HasFDerivAt F L (Function.update x j (x j)) := by rwa [Function.update_eq_self]
  exact (hx.comp_hasDerivAt (x j) (hasDerivAt_update x j (x j))).deriv

/-- The derivative along a direction is a sum over the inputs. -/
theorem apply_eq_sum (h : HasFDerivAt F L x) (d : Fin n → ℝ) :
    L d = ∑ j, d j * partialDerivative F j x := by
  refine (LinearMap.pi_apply_eq_sum_univ L.toLinearMap d).trans (Finset.sum_congr rfl fun j _ => ?_)
  rw [partialDerivative_eq h, smul_eq_mul]
  refine congrArg (fun e => d j * L e) (funext fun i => ?_)
  rw [Pi.single_apply]
  exact if_congr eq_comm rfl rfl

end Real

namespace Formula

variable {n : ℕ} {f : Formula ℝ} {fs : List (Formula ℝ)} {p : Fin n → ℝ} {x : Matrix ℝ}

/-- **An expression that can be differentiated at a point by a pass of dual numbers.** -/
structure Differentiates (p : Fin n → ℝ) (f : Formula ℝ) : Prop where
  plain : f.IsPlain n
  smooth : f.IsSmoothAt p
  least : f.AvoidsLeast

/-- What evaluating an expression at a point gives, along a direction. -/
noncomputable def derivative (p d : Fin n → ℝ) (f : Formula ℝ) : Dual ℝ :=
  ⟨f.meaning p, ∑ j, d j * partialDerivative f.meaning j p⟩

/-- **Value and derivative of an expression.** -/
theorem Differentiates.eval (hf : f.Differentiates p) :
    DifferentiableAt ℝ f.meaning p ∧ ∀ d, f.eval (moving p d) = .ok (f.derivative p d) := by
  obtain ⟨v, hv, L, hL, hvalue⟩ := exists_carries hf.plain hf.smooth hf.least
  refine ⟨hL.differentiableAt, fun d => ?_⟩
  rw [hv, hvalue, apply_eq_sum hL]
  rfl

/-- The tangent when one input moves is the partial derivative. -/
theorem derivative_single (p : Fin n → ℝ) (j : Fin n) (f : Formula ℝ) :
    (f.derivative p (Pi.single j 1)).eps = partialDerivative f.meaning j p := by
  simp [derivative, Pi.single_apply]

theorem resting_eq_moving (hx : x.shape = (n, 1)) :
    DualMap.resting x.data = moving (x.vec n) 0 := by
  rw [DualMap.resting, Matrix.data_of_shape hx, Array.map_ofFn]
  rfl

theorem seeded_eq_moving (hx : x.shape = (n, 1)) (j : Fin n) :
    DualMap.seeded x.data j = moving (x.vec n) (Pi.single j 1) := by
  rw [DualMap.seeded, Matrix.data_of_shape hx]
  refine Array.ext (by simp) fun i hi hi' => ?_
  have hin : i < n := by simpa using hi'
  simp only [Array.getElem_mapIdx, Array.getElem_ofFn, moving, Pi.single_apply, Fin.ext_iff]
  split
  · rfl
  · rfl

/-- **The value column of several expressions.** -/
theorem value_outputs (shape : Shape) (hx : x.shape = (n, 1))
    (hfs : ∀ f ∈ fs, f.Differentiates (x.vec n)) :
    (VectorFormula.outputs shape fs).map.value x =
      .ok (.column (fs.map (·.meaning (x.vec n))).toArray) := by
  have hcolumn : x.requireColumn .value = .ok () := if_pos (Matrix.shape_eq_iff.mp hx).2
  rw [DualMap.value, hcolumn, ok_bind, resting_eq_moving hx,
    VectorFormula.map_outputs shape fun f hf => (hfs f hf).eval.2 0, ok_bind, List.map_toArray,
    List.map_map]
  rfl

/-- **The Jacobian of several expressions.** -/
theorem jacobian_outputs (shape : Shape) (hx : x.shape = (n, 1))
    (hfs : ∀ f ∈ fs, f.Differentiates (x.vec n)) :
    (VectorFormula.outputs shape fs).map.jacobian x =
      .ok (.ofFn fs.length n fun i j => partialDerivative (fs.get i).meaning j (x.vec n)) := by
  have hpass : ∀ j : Fin n, ∀ f ∈ fs, f.eval (DualMap.seeded x.data j) =
      .ok (f.derivative (x.vec n) (Pi.single j 1)) := by
    intro j f hf
    rw [seeded_eq_moving hx]
    exact (hfs f hf).eval.2 _
  rw [VectorFormula.jacobian_outputs shape hx ?_ hpass]
  · simp only [derivative_single]
  · rintro rfl
    exact ⟨_, VectorFormula.map_outputs shape fun f hf => (hfs f hf).eval.2 0, by simp⟩

/-- One expression is a list of one. -/
theorem ofFunction_function (shape : Shape) (f : Formula ℝ) :
    DualMap.ofFunction f.function = (VectorFormula.outputs shape [f]).map := by
  funext v
  rw [DualMap.ofFunction, function, VectorFormula.map, VectorFormula.eval, List.mapM_cons]
  cases f.eval v <;> rfl

/-- **The gradient of one expression.** -/
theorem gradient_function (hx : x.shape = (n, 1)) (hf : f.Differentiates (x.vec n)) :
    f.function.gradient x =
      .ok (.ofFn n 1 fun j _ => partialDerivative f.meaning j (x.vec n)) := by
  have hfs : ∀ g ∈ [f], g.Differentiates (x.vec n) := by simpa using hf
  rw [DualFunction.gradient, ofFunction_function (1, 1), jacobian_outputs (1, 1) hx hfs, ok_bind]
  refine congrArg Except.ok ((Matrix.transpose_ofFn _).trans ?_)
  refine congrArg (Matrix.ofFn n 1) (funext₂ fun j i => ?_)
  obtain rfl : i = ⟨0, Nat.one_pos⟩ := Fin.ext (Nat.lt_one_iff.mp i.isLt)
  rfl

/-! ## Exact derivatives -/

/-- **Dual numbers compute exact derivatives.**  Of expressions built from constants and inputs, at
a point where all of them are smooth: if no power has the least exponent, then evaluating one along
a direction gives its value and the sum of its partial derivatives, each times its component of the
direction; value column, Jacobian and gradients are those of the functions that the expressions
stand for.  An expression in which a power has the least exponent has no value at all. -/
theorem forward_derivatives (shape : Shape) (hx : x.shape = (n, 1))
    (hplain : ∀ f ∈ fs, f.IsPlain n) (hsmooth : ∀ f ∈ fs, f.IsSmoothAt (x.vec n)) :
    ((∀ f ∈ fs, f.AvoidsLeast) →
      (∀ f ∈ fs, DifferentiableAt ℝ f.meaning (x.vec n) ∧
        ∀ d, f.eval (moving (x.vec n) d) =
          .ok ⟨f.meaning (x.vec n), ∑ j, d j * partialDerivative f.meaning j (x.vec n)⟩) ∧
      (VectorFormula.outputs shape fs).map.value x =
        .ok (.column (fs.map (·.meaning (x.vec n))).toArray) ∧
      (VectorFormula.outputs shape fs).map.jacobian x =
        .ok (.ofFn fs.length n fun i j => partialDerivative (fs.get i).meaning j (x.vec n)) ∧
      ∀ f ∈ fs, f.function.gradient x =
        .ok (.ofFn n 1 fun j _ => partialDerivative f.meaning j (x.vec n))) ∧
    ∀ f ∈ fs, ¬f.AvoidsLeast → ∀ d,
      f.eval (moving (x.vec n) d) = .error (.missingExponent Int32.minValue) := by
  refine ⟨fun hleast => ?_, fun f hf hleast d => ?_⟩
  · have hfs : ∀ f ∈ fs, f.Differentiates (x.vec n) := fun f hf =>
      ⟨hplain f hf, hsmooth f hf, hleast f hf⟩
    exact ⟨fun f hf => (hfs f hf).eval, value_outputs shape hx hfs, jacobian_outputs shape hx hfs,
      fun f hf => gradient_function hx (hfs f hf)⟩
  · have hsize : f.IsPlain (moving (x.vec n) d).size := by
      rw [size_moving]
      exact hplain f hf
    obtain ⟨havoids, _⟩ | ⟨_, herror⟩ := eval_outcome hsize
    · exact absurd havoids hleast
    · exact herror

/-- A root times an inverse square. -/
def rootOverSquare : Formula ℝ := .mul (.sqrt (.input 0)) (.powInt (.input 1) (-2))

/-- Its derivatives at the point `(4, 1)`. -/
theorem forward_derivatives_rootOverSquare :
    (DifferentiableAt ℝ rootOverSquare.meaning ![4, 1] ∧
      ∀ d, rootOverSquare.eval (moving ![4, 1] d) =
        .ok ⟨rootOverSquare.meaning ![4, 1],
          ∑ j, d j * partialDerivative rootOverSquare.meaning j ![4, 1]⟩) ∧
    rootOverSquare.function.gradient (.column #[4, 1]) =
      .ok (.ofFn 2 1 fun j _ => partialDerivative rootOverSquare.meaning j ![4, 1]) := by
  have hvec : (Matrix.column #[(4 : ℝ), 1]).vec 2 = ![4, 1] := by
    ext i
    fin_cases i <;> exact Matrix.coeff_column (by decide)
  have hplain : rootOverSquare.IsPlain 2 := by
    simp [rootOverSquare, IsPlain, Everywhere]
  have hsmooth : rootOverSquare.IsSmoothAt ![4, 1] := by
    simp [rootOverSquare, IsSmoothAt, Everywhere, meaning]
  have hleast : rootOverSquare.AvoidsLeast := by
    simp [rootOverSquare, AvoidsLeast, Everywhere]
  have hshape : (Matrix.column #[(4 : ℝ), 1]).shape = (2, 1) := rfl
  obtain ⟨heval, _, _, hgradient⟩ := (forward_derivatives (1, 1) hshape
    (List.forall_mem_singleton.mpr hplain)
    (List.forall_mem_singleton.mpr (hvec ▸ hsmooth))).1 (List.forall_mem_singleton.mpr hleast)
  rw [hvec] at heval hgradient
  exact ⟨heval _ List.mem_cons_self, hgradient _ List.mem_cons_self⟩

/-- **A power with the least exponent is refused where it is smooth**: at the point `1` it has a
derivative, but it is not evaluated. -/
theorem least_power_refused :
    IsPlain 1 (.powInt (.input 0) Int32.minValue : Formula ℝ) ∧
    IsSmoothAt ![1] (.powInt (.input 0) Int32.minValue : Formula ℝ) ∧
    HasDerivAt (fun t : ℝ => t ^ Int32.minValue.toInt) (-2147483648) 1 ∧
    eval (moving ![1] ![1]) (.powInt (.input 0) Int32.minValue : Formula ℝ) =
      .error (.missingExponent Int32.minValue) := by
  refine ⟨⟨trivial, Nat.one_pos⟩, ⟨fun _ => ?_, trivial⟩, ?_, ?_⟩
  · simp [meaning]
  · have hpower := hasDerivAt_zpow Int32.minValue.toInt (1 : ℝ) (.inl one_ne_zero)
    have hleast : Int32.minValue.toInt = -2147483648 := by decide
    rw [one_zpow, mul_one] at hpower
    exact hpower.congr_deriv (by rw [hleast]; norm_num)
  · rfl

end Formula

end InteriorPoint
