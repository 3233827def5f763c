import Mathlib
import InteriorPoint.Iterate
import InteriorPoint.Residual
import InteriorPoint.Proofs.Matrix.Members

/-!
# Proofs/Fit — iterates and evaluations of the right dimensions

With `n` variables, `p` equalities and `k` inequalities, an iterate and an evaluation *fit* if all
their parts have the shapes these numbers ask for.

* `Evaluation.fits_of_compute` — what `Evaluation.compute` accepts fits the dimensions of the
  program; and it is finite (`Evaluation.allFinite_of_compute`).
* `Residual.exists_compute` — where iterate and evaluation fit, the residual can be formed.
-/

namespace InteriorPoint

variable {α : Type}

/-- **An iterate with `n` variables, `p` equalities and `k` inequalities.** -/
structure Iterate.Fits (it : Iterate α) (n p k : Nat) : Prop where
  x : it.x.shape = (n, 1)
  s : it.s.shape = (k, 1)
  y : it.y.shape = (p, 1)
  z : it.z.shape = (k, 1)
  curvature : it.curvature.shape = (n, n)

/-- **An evaluation with `n` variables, `p` equalities and `k` inequalities.** -/
structure Evaluation.Fits (e : Evaluation α) (n p k : Nat) : Prop where
  gradient : e.gradient.shape = (n, 1)
  equality : e.equality.shape = (p, 1)
  inequality : e.inequality.shape = (k, 1)
  equalityJacobian : e.equalityJacobian.shape = (p, n)
  inequalityJacobian : e.inequalityJacobian.shape = (k, n)

/-- **A residual with `n` variables, `p` equalities and `k` inequalities.** -/
structure Residual.Fits (r : Residual α) (n p k : Nat) : Prop where
  stationarity : r.stationarity.shape = (n, 1)
  complementarity : r.complementarity.shape = (k, 1)
  equality : r.equality.shape = (p, 1)
  inequality : r.inequality.shape = (k, 1)

/-- **A direction with `n` variables, `p` equalities and `k` inequalities.** -/
structure Direction.Fits (d : Direction α) (n p k : Nat) : Prop where
  dx : d.dx.shape = (n, 1)
  ds : d.ds.shape = (k, 1)
  dy : d.dy.shape = (p, 1)
  dz : d.dz.shape = (k, 1)

/-- The first iterate fits the dimensions it is made for. -/
theorem Iterate.fits_initial [Scalar α] {x : Matrix α} {size : Size} (mu : α)
    (hx : x.shape = (size.vars, 1)) :
    (Iterate.initial x size mu).Fits size.vars size.equalities size.inequalities :=
  ⟨hx, rfl, rfl, rfl, rfl⟩

/-! ## The dimensions of a program -/

namespace Size

/-- **The dimensions speak of the blocks of a program**, in their order. -/
def Measures (size : Size) (p : Program α) : Prop :=
  size.blocks.map Prod.fst = p.constraints.map Constraint.kind

/-- The dimensions learned at a point are those of the program, and of that point. -/
theorem measures_of_compute {p : Program α} {x : Matrix α} {size : Size}
    (h : Size.compute p x = .ok size) : size.Measures p ∧ x.shape = (size.vars, 1) := by
  rw [Size.compute] at h
  split at h
  · rw [bind_eq_ok] at h
    obtain ⟨_, hthrow, _⟩ := h
    cases hthrow
  · rename_i hcols
    simp only [bind_eq_ok, pure_eq_ok, mapM_eq_ok] at h
    obtain ⟨blocks, hblocks, rfl⟩ := h
    refine ⟨?_, Matrix.shape_eq_iff.mpr ⟨rfl, not_not.mp hcols⟩⟩
    refine (map_eq_of_forall₂ (hblocks.imp fun c b hb => ?_)).symm
    simp only [measure, bind_eq_ok, pure_eq_ok] at hb
    obtain ⟨_, _, _, _, rfl⟩ := hb
    rfl

/-- A block is held to the rows that it had where the dimensions were learned. -/
theorem measured_of_mem_blocksOf {p : Program α} {x : Matrix α} {size : Size}
    {kind : ConstraintKind} {c : Constraint α} {rows : Nat} (h : Size.compute p x = .ok size)
    (hc : (c, rows) ∈ size.blocksOf p kind) :
    c ∈ p.constraints ∧ ∃ v, c.value x = .ok v ∧ v.rows = rows := by
  rw [Size.compute] at h
  split at h
  · obtain ⟨_, hthrow, _⟩ := bind_eq_ok.mp h
    exact nomatch hthrow
  · simp only [bind_eq_ok, pure_eq_ok, mapM_eq_ok] at h
    obtain ⟨blocks, hblocks, rfl⟩ := h
    obtain ⟨⟨c', b⟩, hmem, heq⟩ := List.mem_map.mp hc
    obtain ⟨rfl, rfl⟩ := Prod.mk.inj heq
    have hzip : (c', b) ∈ p.constraints.zip blocks := (List.mem_filter.mp hmem).1
    have hb := (List.forall₂_iff_zip.mp hblocks).2 hzip
    simp only [measure, bind_eq_ok, pure_eq_ok] at hb
    obtain ⟨v, hv, _, _, rfl⟩ := hb
    exact ⟨(List.of_mem_zip hzip).1, v, hv, rfl⟩

/-- The rows that the blocks of a kind are held to are those counted for the kind. -/
theorem map_rows_blocksOf (kind : ConstraintKind) :
    ∀ {cs : List (Constraint α)} {bs : List (ConstraintKind × Nat)},
      bs.map Prod.fst = cs.map Constraint.kind →
      ((cs.zip bs).filter (·.1.kind = kind)).map (·.2.2) = (bs.filter (·.1 = kind)).map (·.2)
  | [], [], _ => rfl
  | c :: cs, b :: bs, h => by
    obtain ⟨hb, hbs⟩ := List.cons_eq_cons.mp h
    have ih := map_rows_blocksOf kind hbs
    have hb : b.1 = c.kind := hb
    by_cases hk : c.kind = kind
    · simp [List.zip_cons_cons, hb, hk, ih]
    · simp [List.zip_cons_cons, hb, hk, ih]

theorem sum_rows_blocksOf {size : Size} {p : Program α} (h : size.Measures p)
    (kind : ConstraintKind) :
    ((size.blocksOf p kind).map (·.2)).sum = size.count kind := by
  rw [blocksOf, List.map_map, count, ← map_rows_blocksOf kind h]
  rfl

theorem shape_of_blockValue_eq_ok {x v : Matrix α} {c : Constraint α} {rows : Nat}
    (h : blockValue x c rows = .ok v) : v.shape = (rows, 1) := by
  simp only [blockValue, bind_eq_ok] at h
  obtain ⟨value, _, h⟩ := h
  split at h
  · rename_i hshape
    rw [← pure_eq_ok.mp h]
    exact hshape
  · cases h

theorem shape_of_blockJacobian_eq_ok {vars : Nat} {x v : Matrix α} {c : Constraint α} {rows : Nat}
    (h : blockJacobian vars x c rows = .ok v) : v.shape = (rows, vars) := by
  simp only [blockJacobian, bind_eq_ok] at h
  obtain ⟨jacobian, _, h⟩ := h
  split at h
  · rename_i hshape
    rw [← pure_eq_ok.mp h]
    exact hshape
  · cases h

/-- **Stacked values have a row per constraint of their kind.** -/
theorem shape_of_values_eq_ok {size : Size} {p : Program α} {kind : ConstraintKind}
    {x v : Matrix α} (hm : size.Measures p) (h : size.values p kind x = .ok v) :
    v.shape = (size.count kind, 1) := by
  simp only [values, bind_eq_ok, pure_eq_ok, mapM_eq_ok] at h
  obtain ⟨parts, hparts, rfl⟩ := h
  have hrows : (size.blocksOf p kind).map (·.2) = parts.map (·.data.size) :=
    map_eq_of_forall₂ (hparts.imp fun _ _ hv =>
      (Matrix.size_data_of_shape (shape_of_blockValue_eq_ok hv)).symm)
  rw [Matrix.shape_column, ← sum_rows_blocksOf hm, hrows]
  simp

/-- **Stacked Jacobians have a row per constraint and a column per variable.** -/
theorem shape_of_jacobians_eq_ok {size : Size} {p : Program α} {kind : ConstraintKind}
    {x v : Matrix α} (hm : size.Measures p) (h : size.jacobians p kind x = .ok v) :
    v.shape = (size.count kind, size.vars) := by
  simp only [jacobians, bind_eq_ok, mapM_eq_ok] at h
  obtain ⟨parts, hparts, h⟩ := h
  have hrows : (size.blocksOf p kind).map (·.2) = parts.map Matrix.rows :=
    map_eq_of_forall₂ (hparts.imp fun _ _ hv =>
      (Matrix.shape_eq_iff.mp (shape_of_blockJacobian_eq_ok hv)).1.symm)
  rw [Matrix.shape_of_stack_eq_ok h, ← sum_rows_blocksOf hm, hrows]
  exact Prod.ext (Nat.zero_add _) rfl

end Size

/-! ## Evaluations and residuals -/

variable [Scalar α]

/-- **What `Evaluation.compute` accepts fits the dimensions of the program.** -/
theorem Evaluation.fits_of_compute {p : Program α} {size : Size} {x : Matrix α}
    {e : Evaluation α} (hm : size.Measures p) (h : Evaluation.compute p size x = .ok e) :
    e.Fits size.vars size.equalities size.inequalities := by
  simp only [Evaluation.compute, bind_eq_ok, pure_eq_ok] at h
  obtain ⟨gradient, hgradient, equality, hequality, inequality, hinequality, equalityJacobian,
    hequalityJacobian, inequalityJacobian, hinequalityJacobian, _, _, rfl⟩ := h
  refine ⟨?_, Size.shape_of_values_eq_ok hm hequality, Size.shape_of_values_eq_ok hm hinequality,
    Size.shape_of_jacobians_eq_ok hm hequalityJacobian,
    Size.shape_of_jacobians_eq_ok hm hinequalityJacobian⟩
  simp only [objectiveGradient, bind_eq_ok] at hgradient
  obtain ⟨value, _, hgradient⟩ := hgradient
  split at hgradient
  · rename_i hshape
    rw [← pure_eq_ok.mp hgradient]
    exact hshape
  · cases hgradient

/-- **An evaluation whose entries are all finite.** -/
structure Evaluation.AllFinite (e : Evaluation α) : Prop where
  gradient : e.gradient.isFinite = true
  equality : e.equality.isFinite = true
  inequality : e.inequality.isFinite = true
  equalityJacobian : e.equalityJacobian.isFinite = true
  inequalityJacobian : e.inequalityJacobian.isFinite = true

theorem Evaluation.requireFinite_eq_ok_iff {e : Evaluation α} :
    e.requireFinite = .ok () ↔ e.AllFinite := by
  have hpart {q : Quantity} {m : Matrix α} : m.requireFinite q = .ok () ↔ m.isFinite = true :=
    Matrix.requireFinite_eq_ok_iff
  simp only [requireFinite, bind_eq_ok]
  constructor
  · rintro ⟨_, h₁, _, h₂, _, h₃, _, h₄, h₅⟩
    exact ⟨hpart.mp h₁, hpart.mp h₂, hpart.mp h₃, hpart.mp h₄, hpart.mp h₅⟩
  · rintro ⟨h₁, h₂, h₃, h₄, h₅⟩
    exact ⟨_, hpart.mpr h₁, _, hpart.mpr h₂, _, hpart.mpr h₃, _, hpart.mpr h₄, hpart.mpr h₅⟩

/-- **What `Evaluation.compute` accepts is finite.** -/
theorem Evaluation.allFinite_of_compute {p : Program α} {size : Size} {x : Matrix α}
    {e : Evaluation α} (h : Evaluation.compute p size x = .ok e) : e.AllFinite := by
  simp only [Evaluation.compute, bind_eq_ok, pure_eq_ok] at h
  obtain ⟨_, _, _, _, _, _, _, _, _, _, _, hfinite, rfl⟩ := h
  exact requireFinite_eq_ok_iff.mp hfinite

/-- The gradient of the Lagrangian can be formed, and is a column with an entry per variable. -/
theorem Evaluation.exists_lagrangianGradient {e : Evaluation α} {y z : Matrix α} {n p k : Nat}
    (he : e.Fits n p k) (hy : y.shape = (p, 1)) (hz : z.shape = (k, 1)) :
    ∃ l, e.lagrangianGradient y z = .ok l ∧ l.shape = (n, 1) := by
  obtain ⟨gy, hgy, hgys⟩ := Matrix.exists_multiply
    (Matrix.shape_transpose_of_shape he.equalityJacobian) hy
  obtain ⟨hz', hhz, hhzs⟩ := Matrix.exists_multiply
    (Matrix.shape_transpose_of_shape he.inequalityJacobian) hz
  obtain ⟨l₁, hl₁, hl₁s⟩ : ∃ l, e.gradient.subtract gy = .ok l ∧ l.shape = _ :=
    Matrix.exists_zipWith? (he.gradient.trans hgys.symm)
  obtain ⟨l₂, hl₂, hl₂s⟩ : ∃ l, l₁.subtract hz' = .ok l ∧ l.shape = _ :=
    Matrix.exists_zipWith? ((hl₁s.trans he.gradient).trans hhzs.symm)
  refine ⟨l₂, ?_, hl₂s.trans (hl₁s.trans he.gradient)⟩
  simp only [lagrangianGradient, bind_eq_ok]
  exact ⟨gy, hgy, l₁, hl₁, hz', hhz, hl₂⟩

/-- **Where iterate and evaluation fit, the residual can be formed.** -/
theorem Residual.exists_compute {e : Evaluation α} {s y z : Matrix α} {n p k : Nat}
    (he : e.Fits n p k) (hs : s.shape = (k, 1)) (hy : y.shape = (p, 1)) (hz : z.shape = (k, 1)) :
    ∃ r, Residual.compute e s y z = .ok r := by
  obtain ⟨l, hl, _⟩ := Evaluation.exists_lagrangianGradient he hy hz
  have hsz : s.hadamard z = _ := Matrix.zipWith?_eq_ok (hs.trans hz.symm)
  have hhs : e.inequality.subtract s = _ := Matrix.zipWith?_eq_ok (he.inequality.trans hs.symm)
  simp only [compute, bind_eq_ok, pure_eq_ok]
  exact ⟨_, l, hl, _, hsz, _, hhs, rfl⟩

/-- …and it fits. -/
theorem Residual.fits_of_compute {e : Evaluation α} {s y z : Matrix α} {r : Residual α}
    {n p k : Nat} (he : e.Fits n p k) (hs : s.shape = (k, 1)) (hy : y.shape = (p, 1))
    (hz : z.shape = (k, 1)) (h : Residual.compute e s y z = .ok r) : r.Fits n p k := by
  simp only [compute, bind_eq_ok, pure_eq_ok] at h
  obtain ⟨l, hl, sz, hsz, d, hd, rfl⟩ := h
  obtain ⟨l', hl', hshape⟩ := Evaluation.exists_lagrangianGradient he hy hz
  obtain rfl : l = l' := Except.ok.inj (hl.symm.trans hl')
  exact
    { stationarity := hshape
      complementarity := (Matrix.shape_of_zipWith?_eq_ok hsz).trans hs
      equality := he.equality
      inequality := (Matrix.shape_of_zipWith?_eq_ok hd).trans he.inequality }

end InteriorPoint
