import Mathlib
import InteriorPoint.Newton
import InteriorPoint.Proofs.Fit
import InteriorPoint.Proofs.LinearSystem
import InteriorPoint.Proofs.Matrix.Grid

/-!
# Proofs/Newton/Layout — how the Newton system is put together and its solution taken apart

Where iterate and evaluation fit, the grid of the system can be assembled from four rows of blocks
(`exists_block`), its right-hand side is the stacked residual (`Residual.exists_rhs`), and the
solution is cut where it was stacked (`exists_split`).  None of this depends on the arithmetic.

* `direction_outcome` — the direction fits and is finite; what can stand in its way is a system that
  is found singular, or a solution that is not finite.
-/

namespace InteriorPoint

variable {α : Type} [Scalar α] {n p k : ℕ}

namespace NewtonSystem

/-! ## The parts of a direction -/

/-- The parts of a direction one below the other. -/
def stacking (α : Type) (n p k : ℕ) :
    (Fin n → α) × (Fin k → α) × (Fin p → α) × (Fin k → α) ≃ (Fin (n + (k + (p + k))) → α) :=
  (Equiv.prodCongr (Equiv.refl _) ((Equiv.prodCongr (Equiv.refl _) (Fin.appendEquiv p k)).trans
    (Fin.appendEquiv k (p + k)))).trans (Fin.appendEquiv n (k + (p + k)))

section Stacking

variable (q : (Fin n → α) × (Fin k → α) × (Fin p → α) × (Fin k → α))

omit [Scalar α]

theorem stacking_first (i : Fin n) : stacking α n p k q (Fin.castAdd (k + (p + k)) i) = q.1 i :=
  Fin.append_left ..

theorem stacking_second (i : Fin k) :
    stacking α n p k q (Fin.natAdd n (Fin.castAdd (p + k) i)) = q.2.1 i :=
  (Fin.append_right ..).trans (Fin.append_left ..)

theorem stacking_third (i : Fin p) :
    stacking α n p k q (Fin.natAdd n (Fin.natAdd k (Fin.castAdd k i))) = q.2.2.1 i :=
  (Fin.append_right ..).trans ((Fin.append_right ..).trans (Fin.append_left ..))

theorem stacking_fourth (i : Fin k) :
    stacking α n p k q (Fin.natAdd n (Fin.natAdd k (Fin.natAdd p i))) = q.2.2.2 i :=
  (Fin.append_right ..).trans ((Fin.append_right ..).trans (Fin.append_right ..))

/-- What is read off the stacked parts at each of the four places. -/
theorem eq_stacking {v : Fin (n + (k + (p + k))) → α}
    (h₁ : ∀ i, v (Fin.castAdd (k + (p + k)) i) = q.1 i)
    (h₂ : ∀ i, v (Fin.natAdd n (Fin.castAdd (p + k) i)) = q.2.1 i)
    (h₃ : ∀ i, v (Fin.natAdd n (Fin.natAdd k (Fin.castAdd k i))) = q.2.2.1 i)
    (h₄ : ∀ i, v (Fin.natAdd n (Fin.natAdd k (Fin.natAdd p i))) = q.2.2.2 i) :
    v = stacking α n p k q := by
  refine funext ((Fin.forall_fin_add _).mpr ⟨fun i => ?_, (Fin.forall_fin_add _).mpr
    ⟨fun i => ?_, (Fin.forall_fin_add _).mpr ⟨fun i => ?_, fun i => ?_⟩⟩⟩)
  · rw [h₁, stacking_first]
  · rw [h₂, stacking_second]
  · rw [h₃, stacking_third]
  · rw [h₄, stacking_fourth]

end Stacking

/-! ## Rows of the grid -/

/-- **A row of the grid**: four blocks of one height, each for a part of the direction. -/
structure BlockRow (α : Type) (n p k height : ℕ) where
  dx : Matrix α
  ds : Matrix α
  dy : Matrix α
  dz : Matrix α
  shape_dx : dx.shape = (height, n)
  shape_ds : ds.shape = (height, k)
  shape_dy : dy.shape = (height, p)
  shape_dz : dz.shape = (height, k)

namespace BlockRow

variable {height : ℕ} (row : BlockRow α n p k height)

/-- The blocks from left to right. -/
def blocks : List (Matrix α) := [row.dx, row.ds, row.dy, row.dz]

omit [Scalar α] in
theorem gridWidth_blocks : Matrix.gridWidth row.blocks = n + (k + (p + k)) := by
  simp [Matrix.gridWidth, blocks, (Matrix.shape_eq_iff.mp row.shape_dx).2,
    (Matrix.shape_eq_iff.mp row.shape_ds).2, (Matrix.shape_eq_iff.mp row.shape_dy).2,
    (Matrix.shape_eq_iff.mp row.shape_dz).2]

theorem exists_gridRow :
    ∃ m, Matrix.gridRow (n + (k + (p + k))) row.blocks = .ok m ∧
      m.shape = (height, n + (k + (p + k))) ∧
      ∀ i j, m.coeff i j = Matrix.besideCoeff row.blocks i j := by
  refine Matrix.exists_gridRow row.dx [row.ds, row.dy, row.dz] ?_ row.gridWidth_blocks
  simp [(Matrix.shape_eq_iff.mp row.shape_dx).1, (Matrix.shape_eq_iff.mp row.shape_ds).1,
    (Matrix.shape_eq_iff.mp row.shape_dy).1, (Matrix.shape_eq_iff.mp row.shape_dz).1]

end BlockRow

/-- **A grid of four rows**, read row by row. -/
theorem exists_block (r₁ : BlockRow α n p k n) (r₂ : BlockRow α n p k k) (r₃ : BlockRow α n p k p)
    (r₄ : BlockRow α n p k k) :
    ∃ M, Matrix.block [r₁.blocks, r₂.blocks, r₃.blocks, r₄.blocks] = .ok M ∧
      M.shape = (n + (k + (p + k)), n + (k + (p + k))) ∧
      (∀ (i : Fin n) (j : ℕ), M.coeff i j = Matrix.besideCoeff r₁.blocks i j) ∧
      (∀ (i : Fin k) (j : ℕ), M.coeff (n + i) j = Matrix.besideCoeff r₂.blocks i j) ∧
      (∀ (i : Fin p) (j : ℕ), M.coeff (n + (k + i)) j = Matrix.besideCoeff r₃.blocks i j) ∧
      ∀ (i : Fin k) (j : ℕ), M.coeff (n + (k + (p + i))) j = Matrix.besideCoeff r₄.blocks i j := by
  obtain ⟨m₁, hm₁, hs₁, hc₁⟩ := r₁.exists_gridRow
  obtain ⟨m₂, hm₂, hs₂, hc₂⟩ := r₂.exists_gridRow
  obtain ⟨m₃, hm₃, hs₃, hc₃⟩ := r₃.exists_gridRow
  obtain ⟨m₄, hm₄, hs₄, hc₄⟩ := r₄.exists_gridRow
  obtain ⟨hn₁, hN₁⟩ := Matrix.shape_eq_iff.mp hs₁
  obtain ⟨hk₂, hN₂⟩ := Matrix.shape_eq_iff.mp hs₂
  obtain ⟨hp₃, hN₃⟩ := Matrix.shape_eq_iff.mp hs₃
  obtain ⟨hk₄, hN₄⟩ := Matrix.shape_eq_iff.mp hs₄
  obtain ⟨M, hM, hMs, hMc⟩ := Matrix.exists_stack m₁ [m₂, m₃, m₄]
    (List.forall_mem_cons.mpr ⟨hN₁, by simp [hN₂, hN₃, hN₄]⟩)
  have hrows : List.Forall₂
      (fun blocks r => Matrix.gridRow (n + (k + (p + k))) blocks = .ok r) _ _ :=
    .cons hm₁ (.cons hm₂ (.cons hm₃ (.cons hm₄ .nil)))
  refine ⟨M, (Matrix.block_eq_stack r₁.gridWidth_blocks hrows).trans hM, ?_, fun i j => ?_,
    fun i j => ?_, fun i j => ?_, fun i j => ?_⟩
  · rw [hMs]
    simp [hn₁, hk₂, hp₃, hk₄]
  · rw [hMc, Matrix.aboveCoeff_of_lt (hn₁ ▸ i.isLt), hc₁]
  · rw [hMc, Matrix.aboveCoeff_add hn₁, Matrix.aboveCoeff_of_lt (hk₂ ▸ i.isLt), hc₂]
  · rw [hMc, Matrix.aboveCoeff_add hn₁, Matrix.aboveCoeff_add hk₂,
      Matrix.aboveCoeff_of_lt (hp₃ ▸ i.isLt), hc₃]
  · rw [hMc, Matrix.aboveCoeff_add hn₁, Matrix.aboveCoeff_add hk₂, Matrix.aboveCoeff_add hp₃,
      Matrix.aboveCoeff_of_lt (hk₄ ▸ i.isLt), hc₄]

section Rows

variable {it : Iterate α} {e : Evaluation α} {diagZ diagS : Matrix α}

/-- The row of the system in which the gradient of the Lagrangian changes. -/
def stationarityRow (hit : it.Fits n p k) (he : e.Fits n p k) : BlockRow α n p k n where
  dx := it.curvature
  ds := .zeros n k
  dy := e.equalityJacobian.transpose.scale (-1)
  dz := e.inequalityJacobian.transpose.scale (-1)
  shape_dx := hit.curvature
  shape_ds := rfl
  shape_dy := Matrix.shape_transpose_of_shape he.equalityJacobian
  shape_dz := Matrix.shape_transpose_of_shape he.inequalityJacobian

/-- The row in which the products of slacks and multipliers change. -/
def complementarityRow (hz : diagZ.shape = (k, k)) (hs : diagS.shape = (k, k)) :
    BlockRow α n p k k where
  dx := .zeros k n
  ds := diagZ
  dy := .zeros k p
  dz := diagS
  shape_dx := rfl
  shape_ds := hz
  shape_dy := rfl
  shape_dz := hs

/-- The row in which the equalities change. -/
def equalityRow (he : e.Fits n p k) : BlockRow α n p k p where
  dx := e.equalityJacobian
  ds := .zeros p k
  dy := .zeros p p
  dz := .zeros p k
  shape_dx := he.equalityJacobian
  shape_ds := rfl
  shape_dy := rfl
  shape_dz := rfl

/-- The row in which the inequalities change, less their slacks. -/
def inequalityRow (he : e.Fits n p k) : BlockRow α n p k k where
  dx := e.inequalityJacobian
  ds := (Matrix.identity k).scale (-1)
  dy := .zeros k p
  dz := .zeros k k
  shape_dx := he.inequalityJacobian
  shape_ds := rfl
  shape_dy := rfl
  shape_dz := rfl

/-- The matrix of the system is the grid of the four rows. -/
theorem matrix_eq_block (hit : it.Fits n p k) (he : e.Fits n p k) (hz : it.z.diag = .ok diagZ)
    (hs : it.s.diag = .ok diagS) (hzs : diagZ.shape = (k, k)) (hss : diagS.shape = (k, k)) :
    (⟨n, p, k⟩ : NewtonSystem).matrix it e =
      Matrix.block [(stationarityRow hit he).blocks,
        (complementarityRow (n := n) (p := p) hzs hss).blocks, (equalityRow he).blocks,
        (inequalityRow he).blocks] := by
  rw [matrix, hz, ok_bind, hs, ok_bind]
  rfl

end Rows

/-! ## The right-hand side and the solution -/

/-- **The right-hand side** is the stacked residual, with `mu` taken off the products. -/
theorem exists_rhs {r : Residual α} (hr : r.Fits n p k) (mu : α) :
    ∃ shifted stacked : Matrix α,
      r.complementarity.subtract ((Matrix.ones r.complementarity.rows).scale mu) = .ok shifted ∧
      shifted.shape = (k, 1) ∧ r.rhs mu = .ok (stacked.scale (-1)) ∧
      stacked.shape = (n + (k + (p + k)), 1) ∧
      ∀ i, stacked.coeff i 0 =
        Matrix.aboveCoeff [r.stationarity, shifted, r.equality, r.inequality] i 0 := by
  obtain ⟨hlr, hlc⟩ := Matrix.shape_eq_iff.mp hr.stationarity
  obtain ⟨hcr, hcc⟩ := Matrix.shape_eq_iff.mp hr.complementarity
  obtain ⟨her, hec⟩ := Matrix.shape_eq_iff.mp hr.equality
  obtain ⟨hir, hic⟩ := Matrix.shape_eq_iff.mp hr.inequality
  have hones : r.complementarity.shape =
      ((Matrix.ones r.complementarity.rows : Matrix α).scale mu).shape :=
    Matrix.shape_eq_iff.mpr ⟨rfl, hcc⟩
  obtain ⟨shifted, hshifted, hshape⟩ : ∃ m, r.complementarity.subtract _ = .ok m ∧ _ :=
    Matrix.exists_zipWith? hones
  obtain ⟨hsr, hsc⟩ := Matrix.shape_eq_iff.mp (hshape.trans hr.complementarity)
  obtain ⟨stacked, hstacked, hss, hentry⟩ := Matrix.exists_stackColumns r.stationarity
    [shifted, r.equality, r.inequality] (by simp [hlc, hsc, hec, hic])
  refine ⟨shifted, stacked, hshifted, hshape.trans hr.complementarity, ?_, ?_, hentry⟩
  · rw [Residual.rhs, hshifted, ok_bind, hstacked, ok_bind]
    rfl
  · rw [hss]
    simp [hlr, hsr, her, hir]

/-- **A solution of the linear system is taken apart** where it was put together. -/
theorem exists_split {x : Matrix α} (hx : x.shape = (n + (k + (p + k)), 1)) :
    ∃ d, (⟨n, p, k⟩ : NewtonSystem).split x = .ok d ∧ d.Fits n p k ∧
      x.vec (n + (k + (p + k))) =
        stacking α n p k (d.dx.vec n, d.ds.vec k, d.dy.vec p, d.dz.vec k) := by
  obtain ⟨hrows, hcols⟩ := Matrix.shape_eq_iff.mp hx
  obtain ⟨dx, hdx, hdxs, hdxc⟩ : ∃ r, x.slice 0 0 n 1 = .ok r ∧ _ :=
    Matrix.exists_slice (by omega) (by omega)
  obtain ⟨ds, hds, hdss, hdsc⟩ : ∃ r, x.slice n 0 k 1 = .ok r ∧ _ :=
    Matrix.exists_slice (by omega) (by omega)
  obtain ⟨dy, hdy, hdys, hdyc⟩ : ∃ r, x.slice (n + k) 0 p 1 = .ok r ∧ _ :=
    Matrix.exists_slice (by omega) (by omega)
  obtain ⟨dz, hdz, hdzs, hdzc⟩ : ∃ r, x.slice (n + k + p) 0 k 1 = .ok r ∧ _ :=
    Matrix.exists_slice (by omega) (by omega)
  refine ⟨⟨dx, ds, dy, dz⟩, ?_, ⟨hdxs, hdss, hdys, hdzs⟩,
    eq_stacking _ (fun i => ?_) (fun i => ?_) (fun i => ?_) (fun i => ?_)⟩
  · simp only [split, bind_eq_ok, pure_eq_ok]
    exact ⟨dx, hdx, ds, hds, dy, hdy, dz, hdz, rfl⟩
  · simp [hdxc i i.isLt 0 Nat.one_pos]
  · simp [hdsc i i.isLt 0 Nat.one_pos]
  · simp [hdyc i i.isLt 0 Nat.one_pos, Nat.add_assoc]
  · simp [hdzc i i.isLt 0 Nat.one_pos, Nat.add_assoc]

/-- The parts of a solution that is finite are finite. -/
theorem isFinite_of_split {x : Matrix α} {d : Direction α} {sys : NewtonSystem}
    (hx : x.isFinite = true) (h : sys.split x = .ok d) :
    d.ds.isFinite = true ∧ d.dz.isFinite = true := by
  simp only [split, bind_eq_ok, pure_eq_ok] at h
  obtain ⟨_, _, ds, hds, _, _, dz, hdz, rfl⟩ := h
  rw [Matrix.isFinite_iff] at hx
  refine ⟨Matrix.isFinite_iff.mpr fun v hv => ?_, Matrix.isFinite_iff.mpr fun v hv => ?_⟩
  · exact hx v (Matrix.mem_of_mem_slice hds hv)
  · exact hx v (Matrix.mem_of_mem_slice hdz hv)

/-! ## Directions -/

/-- **What becomes of the direction**, whatever the arithmetic: it fits and falls by finite amounts,
or the system is found singular, or its solution is not finite. -/
theorem direction_outcome {it : Iterate α} {e : Evaluation α} {r : Residual α}
    (hit : it.Fits n p k) (he : e.Fits n p k) (hr : r.Fits n p k) (mu : α) :
    (∃ d, (⟨n, p, k⟩ : NewtonSystem).direction it e r mu = .ok d ∧ d.Fits n p k ∧
      d.ds.isFinite = true ∧ d.dz.isFinite = true) ∨
    (∃ c, (⟨n, p, k⟩ : NewtonSystem).direction it e r mu = .error (.singular c)) ∨
    ∃ v, (⟨n, p, k⟩ : NewtonSystem).direction it e r mu = .error (.breakdown .newtonStep v) ∧
      Scalar.isFinite v = false := by
  obtain ⟨diagZ, hdiagZ, hdiagZs⟩ := Matrix.exists_diag hit.z
  obtain ⟨diagS, hdiagS, hdiagSs⟩ := Matrix.exists_diag hit.s
  obtain ⟨M, hM, hMs, _⟩ := exists_block (stationarityRow hit he)
    (complementarityRow hdiagZs hdiagSs) (equalityRow he) (inequalityRow he)
  rw [← matrix_eq_block hit he hdiagZ hdiagS] at hM
  obtain ⟨_, stacked, _, _, hrhs, hss, _⟩ := exists_rhs hr mu
  have hdirection : (⟨n, p, k⟩ : NewtonSystem).direction it e r mu =
      solveLinearSystem M (stacked.scale (-1)) >>= fun x =>
        x.requireFinite .newtonStep >>= fun _ => (⟨n, p, k⟩ : NewtonSystem).split x := by
    rw [direction, hM, ok_bind, hrhs, ok_bind]
  rw [hdirection]
  have hbs : (stacked.scale (-1)).shape = (n + (k + (p + k)), 1) := hss
  obtain ⟨x, hx, hxs⟩ | ⟨c, hc⟩ := solveLinearSystem_outcome hMs hbs
  · rw [hx, ok_bind]
    obtain ⟨d, hd, hfits, _⟩ := exists_split hxs
    cases hfinite : x.requireFinite .newtonStep with
    | ok u =>
      have hx : x.isFinite = true := Matrix.requireFinite_eq_ok_iff.mp hfinite
      exact .inl ⟨d, hd, hfits, isFinite_of_split hx hd⟩
    | error err =>
      obtain ⟨v, rfl, hv⟩ := Matrix.eq_breakdown_of_requireFinite hfinite
      exact .inr (.inr ⟨v, rfl, hv⟩)
  · exact .inr (.inl ⟨c, by rw [hc, error_bind]⟩)

section Outcome

variable {it : Iterate α} {e : Evaluation α} {r : Residual α} {mu : α}

/-- A direction that is found fits, and slacks and multipliers change by finite amounts. -/
theorem fits_of_direction {d : Direction α} (hit : it.Fits n p k) (he : e.Fits n p k)
    (hr : r.Fits n p k) (h : (⟨n, p, k⟩ : NewtonSystem).direction it e r mu = .ok d) :
    d.Fits n p k ∧ d.ds.isFinite = true ∧ d.dz.isFinite = true := by
  obtain ⟨d', hd', hfits⟩ | ⟨c, hc⟩ | ⟨v, hv, _⟩ := direction_outcome hit he hr mu
  · obtain rfl : d = d' := Except.ok.inj (h.symm.trans hd')
    exact hfits
  · exact nomatch hc.symm.trans h
  · exact nomatch hv.symm.trans h

theorem cause_of_direction {err : Error α} (hit : it.Fits n p k) (he : e.Fits n p k)
    (hr : r.Fits n p k) (h : (⟨n, p, k⟩ : NewtonSystem).direction it e r mu = .error err) :
    (∃ c, err = .singular c) ∨ ∃ v, err = .breakdown .newtonStep v := by
  obtain ⟨d', hd', _⟩ | ⟨c, hc⟩ | ⟨v, hv, _⟩ := direction_outcome hit he hr mu
  · exact nomatch hd'.symm.trans h
  · exact .inl ⟨c, Except.error.inj (h.symm.trans hc)⟩
  · exact .inr ⟨v, Except.error.inj (h.symm.trans hv)⟩

end Outcome

end NewtonSystem

end InteriorPoint
