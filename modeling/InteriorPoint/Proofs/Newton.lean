import Mathlib
import InteriorPoint.Proofs.Newton.Layout

/-!
# Proofs/Newton — the direction solves the Newton system

The system is read off the grid and the stacked right-hand side block by block.  With the four parts
of a direction one below the other (`stacking`), the matrix sends them to the left-hand sides of the
four equations (`exists_matrix`), and the right-hand side is theirs (`vec_rhs`); so solving the one
linear system is solving the four equations (`direction_cases`), for blocks of any size.

* `direction_spec` — what is returned solves the system, and something is returned exactly if the
  system has one solution.
-/

namespace InteriorPoint

variable {K : Type} [ExactScalar K] {n p k : ℕ}

/-! ## Blocks against vectors -/

namespace Matrix

variable {m : Matrix K} {ms : List (Matrix K)} {i j : ℕ}

/-- A row of blocks against a vector in two parts. -/
theorem sum_besideCoeff {w r : ℕ} (hm : m.cols = w) (i : ℕ) (u : Fin w → K) (v : Fin r → K) :
    ∑ j : Fin (w + r), besideCoeff (m :: ms) i j * Fin.append u v j =
      ∑ j : Fin w, m.coeff i j * u j + ∑ j : Fin r, besideCoeff ms i j * v j := by
  rw [Fin.sum_univ_add]
  refine congrArg₂ (· + ·) ?_ ?_
  · refine Finset.sum_congr rfl fun j _ => ?_
    rw [Fin.append_left, Fin.val_castAdd, besideCoeff, if_pos (hm ▸ j.isLt)]
  · refine Finset.sum_congr rfl fun j _ => ?_
    rw [Fin.append_right, Fin.val_natAdd, besideCoeff, hm, if_neg (by omega),
      Nat.add_sub_cancel_left]

/-! Each kind of block against a vector. -/

theorem sum_zeros {rows cols w : ℕ} (i : ℕ) (v : Fin w → K) :
    ∑ j : Fin w, (zeros rows cols : Matrix K).coeff i j * v j = 0 := by
  simp

theorem sum_neg_transpose {w : ℕ} (m : Matrix K) (i : ℕ) (v : Fin w → K) :
    ∑ j : Fin w, (m.transpose.scale (-1)).coeff i j * v j = -∑ j : Fin w, m.coeff j i * v j := by
  rw [← Finset.sum_neg_distrib]
  exact Finset.sum_congr rfl fun j _ => by rw [coeff_scale, coeff_transpose]; ring

theorem sum_diag {v : Matrix K} (h : v.diag = .ok m) (i : Fin k) (u : Fin k → K) :
    ∑ j : Fin k, m.coeff i j * u j = v.coeff i 0 * u i := by
  rw [Fintype.sum_eq_single i]
  · rw [coeff_of_diag_eq_ok h, if_pos rfl]
  · intro j hj
    rw [coeff_of_diag_eq_ok h, if_neg fun h => hj (Fin.ext h.symm), zero_mul]

theorem sum_neg_identity (i : Fin k) (u : Fin k → K) :
    ∑ j : Fin k, ((identity k : Matrix K).scale (-1)).coeff i j * u j = -u i := by
  rw [Fintype.sum_eq_single i]
  · rw [coeff_scale, coeff_identity i.isLt i.isLt, if_pos rfl]
    ring
  · intro j hj
    rw [coeff_scale, coeff_identity i.isLt j.isLt, if_neg fun h => hj (Fin.ext h.symm), zero_mul,
      zero_mul]

end Matrix

/-! ## The system -/

namespace NewtonSystem

/-- **The four equations** for the parts of a direction. -/
structure Solves (it : Iterate K) (e : Evaluation K) (mu : K) (dx : Fin n → K) (ds : Fin k → K)
    (dy : Fin p → K) (dz : Fin k → K) : Prop where
  stationarity : (it.curvature.entries n n).mulVec dx -
      (e.equalityJacobian.entries p n).transpose.mulVec dy -
      (e.inequalityJacobian.entries k n).transpose.mulVec dz =
    -(e.gradient.vec n - (e.equalityJacobian.entries p n).transpose.mulVec (it.y.vec p) -
      (e.inequalityJacobian.entries k n).transpose.mulVec (it.z.vec k))
  complementarity : ∀ i, it.z.vec k i * ds i + it.s.vec k i * dz i =
    mu - it.s.vec k i * it.z.vec k i
  equality : (e.equalityJacobian.entries p n).mulVec dx = -e.equality.vec p
  inequality : (e.inequalityJacobian.entries k n).mulVec dx - ds =
    -(e.inequality.vec k - it.s.vec k)

/-- **The four equations with nothing on the right**: what can be added to a solution. -/
structure Vanishes (it : Iterate K) (e : Evaluation K) (dx : Fin n → K) (ds : Fin k → K)
    (dy : Fin p → K) (dz : Fin k → K) : Prop where
  stationarity : (it.curvature.entries n n).mulVec dx -
      (e.equalityJacobian.entries p n).transpose.mulVec dy -
      (e.inequalityJacobian.entries k n).transpose.mulVec dz = 0
  complementarity : ∀ i, it.z.vec k i * ds i + it.s.vec k i * dz i = 0
  equality : (e.equalityJacobian.entries p n).mulVec dx = 0
  inequality : (e.inequalityJacobian.entries k n).mulVec dx = ds

theorem stacking_zero : stacking K n p k 0 = 0 :=
  (eq_stacking _ (fun _ => rfl) (fun _ => rfl) (fun _ => rfl) (fun _ => rfl)).symm

/-! ## Rows of the grid -/

namespace BlockRow

variable {height : ℕ} (row : BlockRow K n p k height)

/-- The row against the parts of a direction. -/
def times (q : (Fin n → K) × (Fin k → K) × (Fin p → K) × (Fin k → K)) (i : Fin height) : K :=
  ∑ j : Fin n, row.dx.coeff i j * q.1 j + (∑ j : Fin k, row.ds.coeff i j * q.2.1 j +
    (∑ j : Fin p, row.dy.coeff i j * q.2.2.1 j + ∑ j : Fin k, row.dz.coeff i j * q.2.2.2 j))

/-- **A row of the matrix** that is read off the blocks, against the stacked parts. -/
theorem mulVec_stacking {M : Matrix K} {r : Fin (n + (k + (p + k)))} {i : Fin height}
    (hrow : ∀ j, M.coeff r j = Matrix.besideCoeff row.blocks i j)
    (q : (Fin n → K) × (Fin k → K) × (Fin p → K) × (Fin k → K)) :
    (M.entries (n + (k + (p + k))) (n + (k + (p + k)))).mulVec (stacking K n p k q) r =
      row.times q i := by
  have hlast : ∑ j : Fin k, Matrix.besideCoeff [row.dz] i j * q.2.2.2 j =
      ∑ j : Fin k, row.dz.coeff i j * q.2.2.2 j :=
    Finset.sum_congr rfl fun j _ => by
      rw [Matrix.besideCoeff, (Matrix.shape_eq_iff.mp row.shape_dz).2, if_pos j.isLt]
  rw [times, ← hlast, ← Matrix.sum_besideCoeff (Matrix.shape_eq_iff.mp row.shape_dy).2,
    ← Matrix.sum_besideCoeff (Matrix.shape_eq_iff.mp row.shape_ds).2,
    ← Matrix.sum_besideCoeff (Matrix.shape_eq_iff.mp row.shape_dx).2]
  change ∑ j : Fin (n + (k + (p + k))), M.coeff r j * stacking K n p k q j = _
  refine Finset.sum_congr rfl fun j _ => ?_
  rw [hrow]
  rfl

end BlockRow

/-- **A grid of four rows** acts on the stacked parts row by row. -/
theorem exists_block_times (r₁ : BlockRow K n p k n) (r₂ : BlockRow K n p k k)
    (r₃ : BlockRow K n p k p) (r₄ : BlockRow K n p k k) :
    ∃ M, Matrix.block [r₁.blocks, r₂.blocks, r₃.blocks, r₄.blocks] = .ok M ∧
      M.shape = (n + (k + (p + k)), n + (k + (p + k))) ∧
      ∀ q, (M.entries (n + (k + (p + k))) (n + (k + (p + k)))).mulVec (stacking K n p k q) =
        stacking K n p k (r₁.times q, r₂.times q, r₃.times q, r₄.times q) := by
  obtain ⟨M, hM, hMs, h₁, h₂, h₃, h₄⟩ := exists_block r₁ r₂ r₃ r₄
  refine ⟨M, hM, hMs, fun q => eq_stacking _ (fun i => ?_) (fun i => ?_) (fun i => ?_)
    (fun i => ?_)⟩
  · exact r₁.mulVec_stacking (fun j => h₁ i j) q
  · exact r₂.mulVec_stacking (fun j => h₂ i j) q
  · exact r₃.mulVec_stacking (fun j => h₃ i j) q
  · exact r₄.mulVec_stacking (fun j => h₄ i j) q

/-- **The matrix of the system**: it sends the parts of a direction to the left-hand sides of the
four equations. -/
theorem exists_matrix {it : Iterate K} {e : Evaluation K} (hit : it.Fits n p k)
    (he : e.Fits n p k) :
    ∃ M, (⟨n, p, k⟩ : NewtonSystem).matrix it e = .ok M ∧
      M.shape = (n + (k + (p + k)), n + (k + (p + k))) ∧
      ∀ dx ds dy dz,
        (M.entries (n + (k + (p + k))) (n + (k + (p + k)))).mulVec
            (stacking K n p k (dx, ds, dy, dz)) =
          stacking K n p k
            ((it.curvature.entries n n).mulVec dx -
              (e.equalityJacobian.entries p n).transpose.mulVec dy -
              (e.inequalityJacobian.entries k n).transpose.mulVec dz,
            (fun i => it.z.vec k i * ds i + it.s.vec k i * dz i),
            (e.equalityJacobian.entries p n).mulVec dx,
            (e.inequalityJacobian.entries k n).mulVec dx - ds) := by
  obtain ⟨diagZ, hdiagZ, hdiagZs⟩ := Matrix.exists_diag hit.z
  obtain ⟨diagS, hdiagS, hdiagSs⟩ := Matrix.exists_diag hit.s
  obtain ⟨M, hM, hMs, haction⟩ := exists_block_times (stationarityRow hit he)
    (complementarityRow hdiagZs hdiagSs) (equalityRow he) (inequalityRow he)
  rw [← matrix_eq_block hit he hdiagZ hdiagS] at hM
  refine ⟨M, hM, hMs, fun dx ds dy dz => ?_⟩
  rw [haction]
  refine congrArg (stacking K n p k) (Prod.ext (funext fun i => ?_) (Prod.ext (funext fun i => ?_)
    (Prod.ext (funext fun i => ?_) (funext fun i => ?_))))
  · dsimp only [BlockRow.times, stationarityRow]
    rw [Matrix.sum_zeros, Matrix.sum_neg_transpose, Matrix.sum_neg_transpose, zero_add,
      ← add_assoc, ← sub_eq_add_neg, ← sub_eq_add_neg]
    rfl
  · dsimp only [BlockRow.times, complementarityRow]
    rw [Matrix.sum_zeros, Matrix.sum_zeros, Matrix.sum_diag hdiagZ, Matrix.sum_diag hdiagS,
      zero_add, zero_add]
    rfl
  · dsimp only [BlockRow.times, equalityRow]
    rw [Matrix.sum_zeros, Matrix.sum_zeros, Matrix.sum_zeros, add_zero, add_zero, add_zero]
    rfl
  · dsimp only [BlockRow.times, inequalityRow]
    rw [Matrix.sum_neg_identity, Matrix.sum_zeros, Matrix.sum_zeros, add_zero, add_zero,
      ← sub_eq_add_neg]
    rfl

/-! ## The right-hand side -/

/-- The gradient of the Lagrangian as a vector. -/
theorem vec_of_lagrangianGradient_eq_ok {e : Evaluation K} {y z l : Matrix K}
    (he : e.Fits n p k) (h : e.lagrangianGradient y z = .ok l) :
    l.vec n = e.gradient.vec n - (e.equalityJacobian.entries p n).transpose.mulVec (y.vec p) -
      (e.inequalityJacobian.entries k n).transpose.mulVec (z.vec k) := by
  simp only [Evaluation.lagrangianGradient, bind_eq_ok] at h
  obtain ⟨gy, hgy, l₁, hl₁, hz, hhz, hl⟩ := h
  ext i
  rw [Matrix.vec_apply, Matrix.coeff_of_subtract_eq_ok hl, Matrix.coeff_of_subtract_eq_ok hl₁,
    Matrix.coeff_of_multiply_eq_ok (Matrix.shape_transpose_of_shape he.equalityJacobian) hgy,
    Matrix.coeff_of_multiply_eq_ok (Matrix.shape_transpose_of_shape he.inequalityJacobian) hhz]
  simp only [Matrix.coeff_transpose]
  rfl

/-- **The right-hand side of the system** is that of the four equations. -/
theorem vec_rhs {it : Iterate K} {e : Evaluation K} {r : Residual K} (hit : it.Fits n p k)
    (he : e.Fits n p k) (hr : Residual.compute e it.s it.y it.z = .ok r) (mu : K) :
    ∃ b, r.rhs mu = .ok b ∧ b.shape = (n + (k + (p + k)), 1) ∧
      b.vec (n + (k + (p + k))) = stacking K n p k
        (-(e.gradient.vec n - (e.equalityJacobian.entries p n).transpose.mulVec (it.y.vec p) -
            (e.inequalityJacobian.entries k n).transpose.mulVec (it.z.vec k)),
          (fun i => mu - it.s.vec k i * it.z.vec k i), -e.equality.vec p,
          -(e.inequality.vec k - it.s.vec k)) := by
  have hfits := Residual.fits_of_compute he hit.s hit.y hit.z hr
  obtain ⟨shifted, stacked, hshifted, hss, hrhs, hshape, hentry⟩ := exists_rhs hfits mu
  simp only [Residual.compute, bind_eq_ok, pure_eq_ok] at hr
  obtain ⟨l, hl, sz, hsz, d, hd, rfl⟩ := hr
  obtain ⟨hlr, _⟩ := Matrix.shape_eq_iff.mp hfits.stationarity
  obtain ⟨hszr, _⟩ := Matrix.shape_eq_iff.mp hfits.complementarity
  obtain ⟨hsr, _⟩ := Matrix.shape_eq_iff.mp hss
  obtain ⟨her, _⟩ := Matrix.shape_eq_iff.mp hfits.equality
  obtain ⟨hdr, _⟩ := Matrix.shape_eq_iff.mp hfits.inequality
  refine ⟨stacked.scale (-1), hrhs, hshape, eq_stacking _ (fun i => ?_) (fun i => ?_)
    (fun i => ?_) (fun i => ?_)⟩
  · rw [Matrix.vec_apply, Matrix.coeff_scale, hentry, Fin.val_castAdd,
      Matrix.aboveCoeff_of_lt (hlr ▸ i.isLt), ← vec_of_lagrangianGradient_eq_ok he hl, mul_neg_one]
    rfl
  · rw [Matrix.vec_apply, Matrix.coeff_scale, hentry, Fin.val_natAdd, Fin.val_castAdd,
      Matrix.aboveCoeff_add hlr, Matrix.aboveCoeff_of_lt (hsr ▸ i.isLt),
      Matrix.coeff_of_subtract_eq_ok hshifted, Matrix.coeff_of_hadamard_eq_ok hsz,
      Matrix.coeff_scale, Matrix.coeff_ones (hszr ▸ i.isLt), one_mul, mul_neg_one, neg_sub]
    rfl
  · rw [Matrix.vec_apply, Matrix.coeff_scale, hentry, Fin.val_natAdd, Fin.val_natAdd,
      Fin.val_castAdd, Matrix.aboveCoeff_add hlr, Matrix.aboveCoeff_add hsr,
      Matrix.aboveCoeff_of_lt (her ▸ i.isLt), mul_neg_one]
    rfl
  · rw [Matrix.vec_apply, Matrix.coeff_scale, hentry, Fin.val_natAdd, Fin.val_natAdd,
      Fin.val_natAdd, Matrix.aboveCoeff_add hlr, Matrix.aboveCoeff_add hsr,
      Matrix.aboveCoeff_add her, Matrix.aboveCoeff_of_lt (hdr ▸ i.isLt),
      Matrix.coeff_of_subtract_eq_ok hd, mul_neg_one]
    rfl

/-! ## Directions -/

/-- A system with one solution has an invertible matrix. -/
theorem isUnit_of_existsUnique {A : Fin n → Fin n → K} {b : Fin n → K}
    (h : ∃! v, (Matrix.of A).mulVec v = b) : IsUnit (Matrix.of A) := by
  obtain ⟨v, hv, hunique⟩ := h
  refine Matrix.mulVec_injective_iff_isUnit.mp fun u w huw => ?_
  -- two vectors with one image differ by something that can be added to the solution
  have hother : (Matrix.of A).mulVec (v + (u - w)) = b := by
    rw [Matrix.mulVec_add, Matrix.mulVec_sub, huw, sub_self, add_zero, hv]
  exact sub_eq_zero.mp (left_eq_add.mp (hunique _ hother).symm)

/-- Exact scalars are all finite. -/
theorem requireFinite_eq_ok (quantity : Quantity) (m : Matrix K) :
    m.requireFinite quantity = .ok () := by
  have hnone : m.firstNonFinite? = none := Array.find?_eq_none.mpr fun _ _ h => nomatch h
  rw [Matrix.requireFinite, hnone]

/-- **What the direction comes to**: the one solution of the four equations, or, where they do not
have exactly one, a system that is found singular. -/
theorem direction_cases {it : Iterate K} {e : Evaluation K} {r : Residual K} (hit : it.Fits n p k)
    (he : e.Fits n p k) (hr : Residual.compute e it.s it.y it.z = .ok r) (mu : K) :
    (∃ d, (⟨n, p, k⟩ : NewtonSystem).direction it e r mu = .ok d ∧ d.Fits n p k ∧
      (∀ q : (Fin n → K) × (Fin k → K) × (Fin p → K) × (Fin k → K),
        Solves it e mu q.1 q.2.1 q.2.2.1 q.2.2.2 ↔
          q = (d.dx.vec n, d.ds.vec k, d.dy.vec p, d.dz.vec k)) ∧
      ∀ q : (Fin n → K) × (Fin k → K) × (Fin p → K) × (Fin k → K),
        Vanishes it e q.1 q.2.1 q.2.2.1 q.2.2.2 → q = 0) ∨
    (∃ c, (⟨n, p, k⟩ : NewtonSystem).direction it e r mu = .error (.singular c)) ∧
      (¬∃! q : (Fin n → K) × (Fin k → K) × (Fin p → K) × (Fin k → K),
        Solves it e mu q.1 q.2.1 q.2.2.1 q.2.2.2) ∧
      ∃ q : (Fin n → K) × (Fin k → K) × (Fin p → K) × (Fin k → K),
        q ≠ 0 ∧ Vanishes it e q.1 q.2.1 q.2.2.1 q.2.2.2 := by
  obtain ⟨M, hM, hMs, haction⟩ := exists_matrix hit he
  obtain ⟨b, hb, hbs, hrhs⟩ := vec_rhs hit he hr mu
  have hsolves : ∀ q : (Fin n → K) × (Fin k → K) × (Fin p → K) × (Fin k → K),
      Solves it e mu q.1 q.2.1 q.2.2.1 q.2.2.2 ↔
        (M.entries (n + (k + (p + k))) (n + (k + (p + k)))).mulVec (stacking K n p k q) =
          b.vec (n + (k + (p + k))) := by
    rintro ⟨dx, ds, dy, dz⟩
    rw [haction, hrhs, (stacking K n p k).apply_eq_iff_eq, Prod.mk.injEq, Prod.mk.injEq,
      Prod.mk.injEq]
    exact ⟨fun h => ⟨h.stationarity, funext h.complementarity, h.equality, h.inequality⟩,
      fun ⟨h₁, h₂, h₃, h₄⟩ => ⟨h₁, congrFun h₂, h₃, h₄⟩⟩
  have hvanishes : ∀ q : (Fin n → K) × (Fin k → K) × (Fin p → K) × (Fin k → K),
      Vanishes it e q.1 q.2.1 q.2.2.1 q.2.2.2 ↔
        (M.entries (n + (k + (p + k))) (n + (k + (p + k)))).mulVec (stacking K n p k q) = 0 := by
    rintro ⟨dx, ds, dy, dz⟩
    rw [haction, ← stacking_zero, (stacking K n p k).apply_eq_iff_eq, Prod.ext_iff, Prod.ext_iff,
      Prod.ext_iff]
    exact ⟨fun h => ⟨h.stationarity, funext h.complementarity, h.equality,
        sub_eq_zero.mpr h.inequality⟩,
      fun ⟨h₁, h₂, h₃, h₄⟩ => ⟨h₁, congrFun h₂, h₃, sub_eq_zero.mp h₄⟩⟩
  obtain ⟨hunit, x, hx, hxs, hunique⟩ | ⟨hunit, c, herror, _⟩ := solveLinearSystem_cases hMs hbs
  · obtain ⟨d, hd, hfits, hparts⟩ := exists_split hxs
    refine .inl ⟨d, ?_, hfits, fun q => ?_, fun q hq => ?_⟩
    · simp only [direction, bind_eq_ok]
      exact ⟨M, hM, b, hb, x, hx, (), requireFinite_eq_ok _ x, hd⟩
    · rw [hsolves, hunique, hparts, (stacking K n p k).apply_eq_iff_eq]
    · have hzero := Matrix.mulVec_injective_iff_isUnit.mpr hunit
        (((hvanishes q).mp hq).trans (Matrix.mulVec_zero _).symm)
      exact (stacking K n p k).injective (hzero.trans stacking_zero.symm)
  · refine .inr ⟨⟨c, ?_⟩, fun hone => hunit ?_, ?_⟩
    · rw [direction, hM, ok_bind, hb, ok_bind, herror, error_bind]
    · exact isUnit_of_existsUnique (((stacking K n p k).existsUnique_congr hsolves).mp hone)
    · rw [Matrix.isUnit_iff_isUnit_det, isUnit_iff_ne_zero, not_not] at hunit
      obtain ⟨v, hne, hv⟩ := Matrix.exists_mulVec_eq_zero_iff.mpr hunit
      refine ⟨(stacking K n p k).symm v, fun hzero => hne ?_, (hvanishes _).mpr ?_⟩
      · rw [← (stacking K n p k).apply_symm_apply v, hzero, stacking_zero]
      · rw [(stacking K n p k).apply_symm_apply, hv]

/-- **The direction solves the Newton system.**  Where iterate and evaluation fit, the residual is
formed; what is then returned has the four parts in their dimensions and solves the four equations;
and something is returned if and only if these have exactly one solution. -/
theorem direction_spec {it : Iterate K} {e : Evaluation K} (hit : it.Fits n p k)
    (he : e.Fits n p k) (mu : K) :
    ∃ r, Residual.compute e it.s it.y it.z = .ok r ∧
    (∀ d, (⟨n, p, k⟩ : NewtonSystem).direction it e r mu = .ok d →
      (d.dx.shape = (n, 1) ∧ d.ds.shape = (k, 1) ∧ d.dy.shape = (p, 1) ∧ d.dz.shape = (k, 1)) ∧
      Solves it e mu (d.dx.vec n) (d.ds.vec k) (d.dy.vec p) (d.dz.vec k)) ∧
    ((∃ d, (⟨n, p, k⟩ : NewtonSystem).direction it e r mu = .ok d) ↔
      ∃! q : (Fin n → K) × (Fin k → K) × (Fin p → K) × (Fin k → K),
        Solves it e mu q.1 q.2.1 q.2.2.1 q.2.2.2) := by
  obtain ⟨r, hr⟩ := Residual.exists_compute he hit.s hit.y hit.z
  refine ⟨r, hr, ?_⟩
  obtain ⟨d, hd, hfits, hsolves, _⟩ | ⟨⟨c, herr⟩, hnone, _⟩ := direction_cases hit he hr mu
  · refine ⟨fun d' hd' => ?_, ⟨fun _ => ?_, fun _ => ⟨d, hd⟩⟩⟩
    · obtain rfl : d = d' := Except.ok.inj (hd.symm.trans hd')
      exact ⟨⟨hfits.dx, hfits.ds, hfits.dy, hfits.dz⟩, (hsolves _).mpr rfl⟩
    · exact ⟨_, (hsolves _).mpr rfl, fun q hq => (hsolves q).mp hq⟩
  · refine ⟨fun d hd => ?_, ⟨?_, fun hone => absurd hone hnone⟩⟩
    · cases herr.symm.trans hd
    · rintro ⟨d, hd⟩
      cases herr.symm.trans hd

/-- A point with two variables, one equality and one inequality. -/
def sampleIterate : Iterate ℚ where
  x := Matrix.column #[1, 2]
  s := Matrix.column #[2]
  y := Matrix.column #[1]
  z := Matrix.column #[1 / 2]
  curvature := Matrix.identity 2
  mu := 1

/-- What a program may be there. -/
def sampleEvaluation : Evaluation ℚ where
  gradient := Matrix.column #[2, 4]
  equality := Matrix.column #[-1]
  inequality := Matrix.column #[3]
  equalityJacobian := Matrix.row #[1, 1]
  inequalityJacobian := Matrix.row #[1, 0]

/-- A direction is found there, and so the four equations have exactly one solution. -/
theorem direction_spec_sample :
    (sampleIterate.Fits 2 1 1 ∧ sampleEvaluation.Fits 2 1 1) ∧
      ∃! q : (Fin 2 → ℚ) × (Fin 1 → ℚ) × (Fin 1 → ℚ) × (Fin 1 → ℚ),
        Solves sampleIterate sampleEvaluation (1 / 10) q.1 q.2.1 q.2.2.1 q.2.2.2 := by
  have hit : sampleIterate.Fits 2 1 1 := ⟨rfl, rfl, rfl, rfl, rfl⟩
  have he : sampleEvaluation.Fits 2 1 1 := ⟨rfl, rfl, rfl, rfl, rfl⟩
  refine ⟨⟨hit, he⟩, ?_⟩
  obtain ⟨r, hr, _, hone⟩ := direction_spec hit he (1 / 10)
  have hfound : (Residual.compute sampleEvaluation sampleIterate.s sampleIterate.y
      sampleIterate.z >>= fun r => (⟨2, 1, 1⟩ : NewtonSystem).direction sampleIterate
        sampleEvaluation r (1 / 10)).isOk = true := by decide +kernel
  rw [hr, ok_bind] at hfound
  refine hone.mp ?_
  cases hd : (⟨2, 1, 1⟩ : NewtonSystem).direction sampleIterate sampleEvaluation r (1 / 10) with
  | error err =>
    rw [hd] at hfound
    cases hfound
  | ok d => exact ⟨d, rfl⟩

end NewtonSystem

end InteriorPoint
