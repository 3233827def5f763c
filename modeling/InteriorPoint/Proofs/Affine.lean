import Mathlib
import InteriorPoint.Proofs.Boundary
import InteriorPoint.Proofs.Matrix.Grid
import InteriorPoint.Proofs.Stacking

/-!
# Proofs/Affine — affine constraints along a line

A block of constraints is affine if its values are `A x + b` and its Jacobian is `A` at every point.
Affine blocks that are stacked are one affine block (`Program.Affine.stacked`), so along a line the
stacked values change by the stacked Jacobian alone, and by exactly so much
(`Program.Affine.values_along`).
-/

namespace InteriorPoint

variable {K : Type} [ExactScalar K] {n rows : ℕ} {p : Program K} {kind : ConstraintKind}

namespace Matrix

/-- **The entries of `A x + b`.** -/
theorem exists_multiply_add {a b x : Matrix K} (ha : a.shape = (rows, n)) (hb : b.shape = (rows, 1))
    (hx : x.shape = (n, 1)) :
    ∃ v, (a.multiply x >>= fun image => image.add b) = .ok v ∧ v.shape = (rows, 1) ∧
      ∀ i, v.coeff i 0 = ∑ l : Fin n, a.coeff i l * x.coeff l 0 + b.coeff i 0 := by
  obtain ⟨image, himage, hshape⟩ := exists_multiply ha hx
  obtain ⟨v, hv, hvshape⟩ : ∃ v, image.add b = .ok v ∧ _ :=
    exists_zipWith? (hshape.trans hb.symm)
  refine ⟨v, bind_eq_ok.mpr ⟨image, himage, hv⟩, hvshape.trans hshape, fun i => ?_⟩
  rw [coeff_of_add_eq_ok hv, coeff_of_multiply_eq_ok ha himage]

end Matrix

/-! ## Affine functions -/

/-- **A function that is affine on columns with `n` entries**, with its Jacobian: `A x + b` and
`A`. -/
def IsAffine (value jacobian : MatrixFunction K) (n : ℕ) : Prop :=
  ∃ (rows : ℕ) (a b : Matrix K), a.shape = (rows, n) ∧ b.shape = (rows, 1) ∧
    ∀ x, x.shape = (n, 1) →
      value x = (a.multiply x >>= fun image => image.add b) ∧ jacobian x = .ok a

/-- **A program with affine constraints** on points with `n` entries. -/
def Program.Affine (p : Program K) (n : ℕ) : Prop :=
  ∀ c ∈ p.constraints, IsAffine c.value c.jacobian n

/-- **An affine function along a line** changes by its Jacobian. -/
theorem IsAffine.along {value jacobian : MatrixFunction K} {x dx x' : Matrix K} {alpha : K}
    (h : IsAffine value jacobian n) (hx : x.shape = (n, 1))
    (hx' : x.add (dx.scale alpha) = .ok x') :
    ∃ v j v', value x = .ok v ∧ jacobian x = .ok j ∧ value x' = .ok v' ∧ v'.shape = v.shape ∧
      ∀ i, v'.coeff i 0 = v.coeff i 0 + alpha * ∑ l : Fin n, j.coeff i l * dx.coeff l 0 := by
  obtain ⟨rows, a, b, ha, hb, haffine⟩ := h
  have hxshape : x'.shape = (n, 1) := (Matrix.shape_of_zipWith?_eq_ok hx').trans hx
  obtain ⟨v, hv, hshape, hcoeff⟩ := Matrix.exists_multiply_add ha hb hx
  obtain ⟨v', hv', hshape', hcoeff'⟩ := Matrix.exists_multiply_add ha hb hxshape
  obtain ⟨hvalue, hjacobian⟩ := haffine x hx
  refine ⟨v, a, v', hvalue.trans hv, hjacobian, (haffine x' hxshape).1.trans hv',
    hshape'.trans hshape.symm, fun i => ?_⟩
  have hterm : ∀ l : Fin n, a.coeff i l * x'.coeff l 0 =
      a.coeff i l * x.coeff l 0 + alpha * (a.coeff i l * dx.coeff l 0) := by
    intro l
    rw [Matrix.coeff_of_add_eq_ok hx', Matrix.coeff_scale]
    ring
  simp only [hcoeff, hcoeff', hterm, Finset.sum_add_distrib, Finset.mul_sum]
  ring

/-! ## Affine blocks above each other -/

/-- **Blocks of affine functions above each other** are read as one. -/
theorem exists_affine_blocks : ∀ {cs : List (Constraint K)},
    (∀ c ∈ cs, IsAffine c.value c.jacobian n) →
    ∃ as bs : List (Matrix K), (∀ a ∈ as, a.cols = n) ∧ (∀ b ∈ bs, b.cols = 1) ∧
      bs.map Matrix.rows = as.map Matrix.rows ∧
      ∀ x, x.shape = (n, 1) → cs.mapM (fun c => c.jacobian x) = .ok as ∧
        ∃ vs, cs.mapM (fun c => c.value x) = .ok vs ∧ (∀ v ∈ vs, v.cols = 1) ∧
          vs.map Matrix.rows = as.map Matrix.rows ∧
          ∀ i, Matrix.aboveCoeff vs i 0 =
            ∑ l : Fin n, Matrix.aboveCoeff as i l * x.coeff l 0 + Matrix.aboveCoeff bs i 0
  | [], _ => ⟨[], [], nofun, nofun, rfl, fun x _ => ⟨rfl, [], rfl, nofun, rfl, fun i => by
      simp [Matrix.aboveCoeff]⟩⟩
  | c :: cs, hcs => by
    obtain ⟨⟨rows, a, b, ha, hb, haffine⟩, hcs⟩ := List.forall_mem_cons.mp hcs
    obtain ⟨as, bs, has, hbs, hrows, hblocks⟩ := exists_affine_blocks hcs
    obtain ⟨har, hac⟩ := Matrix.shape_eq_iff.mp ha
    obtain ⟨hbr, hbc⟩ := Matrix.shape_eq_iff.mp hb
    refine ⟨a :: as, b :: bs, List.forall_mem_cons.mpr ⟨hac, has⟩,
      List.forall_mem_cons.mpr ⟨hbc, hbs⟩, ?_, fun x hx => ?_⟩
    · rw [List.map_cons, List.map_cons, har, hbr, hrows]
    · obtain ⟨hvalue, hjacobian⟩ := haffine x hx
      obtain ⟨hjacobians, vs, hvs, hvscols, hvsrows, hcoeffs⟩ := hblocks x hx
      obtain ⟨v, hv, hshape, hcoeff⟩ := Matrix.exists_multiply_add ha hb hx
      obtain ⟨hvr, hvc⟩ := Matrix.shape_eq_iff.mp hshape
      refine ⟨?_, v :: vs, ?_, List.forall_mem_cons.mpr ⟨hvc, hvscols⟩, ?_, fun i => ?_⟩
      · rw [List.mapM_cons, hjacobian, ok_bind, hjacobians]
        rfl
      · rw [List.mapM_cons, hvalue, hv, ok_bind, hvs]
        rfl
      · rw [List.map_cons, List.map_cons, har, hvr, hvsrows]
      · simp only [Matrix.aboveCoeff, har, hbr, hvr]
        split
        · exact hcoeff i
        · exact hcoeffs _

namespace Program

theorem Affine.steady (hp : p.Affine n) : p.Steady n := by
  intro c hc
  obtain ⟨rows, a, b, ha, hb, haffine⟩ := hp c hc
  refine ⟨rows, fun x hx => ?_⟩
  obtain ⟨hvalue, hjacobian⟩ := haffine x hx
  obtain ⟨v, hv, hshape, _⟩ := Matrix.exists_multiply_add ha hb hx
  exact ⟨⟨v, hvalue.trans hv, hshape⟩, a, hjacobian, ha⟩

/-- **Stacked affine blocks are an affine function.** -/
theorem Affine.stacked (hp : p.Affine n) (kind : ConstraintKind) :
    IsAffine (p.stackedValues kind) (p.stackedJacobians kind) n := by
  have hfiltered : ∀ c ∈ p.constraints.filter (·.kind = kind), IsAffine c.value c.jacobian n :=
    fun c hc => hp c (List.mem_of_mem_filter hc)
  obtain ⟨as, bs, has, hbs, hrows, hblocks⟩ := exists_affine_blocks hfiltered
  obtain ⟨a, ha, hashape, hacoeff⟩ := Matrix.exists_stack (Matrix.noRows n) as
    (List.forall_mem_cons.mpr ⟨rfl, has⟩)
  obtain ⟨hbrows, hbcoeff⟩ := Matrix.column_flatMap hbs
  have hashape : a.shape = ((as.map Matrix.rows).sum, n) := by
    rw [hashape]
    exact congrArg (·, n) (Nat.zero_add _)
  have hbshape : (Matrix.column (bs.toArray.flatMap Matrix.data)).shape =
      ((as.map Matrix.rows).sum, 1) := Matrix.shape_eq_iff.mpr ⟨hbrows.trans (by rw [hrows]), rfl⟩
  refine ⟨_, a, _, hashape, hbshape, fun x hx => ?_⟩
  obtain ⟨hjacobians, vs, hvs, hvscols, hvsrows, hcoeffs⟩ := hblocks x hx
  obtain ⟨hvrows, hvcoeff⟩ := Matrix.column_flatMap hvscols
  obtain ⟨v, hv, hvshape, hcoeff⟩ := Matrix.exists_multiply_add hashape hbshape hx
  constructor
  · rw [hv, stackedValues, hvs]
    refine congrArg Except.ok (Matrix.eq_of_vec
      (Matrix.shape_eq_iff.mpr ⟨hvrows.trans (by rw [hvsrows]), rfl⟩) hvshape fun i => ?_)
    simp only [Matrix.vec_apply, hvcoeff, hcoeff, hbcoeff, hcoeffs, hacoeff]
    rfl
  · rw [stackedJacobians, hjacobians, (Matrix.shape_eq_iff.mp hx).1]
    exact ha

/-- **The values of affine constraints along a line** change by the Jacobian. -/
theorem Affine.values_along {size : Size} {x₀ x dx x' v j : Matrix K} {alpha : K}
    (hp : p.Affine size.vars) (hsize : Size.compute p x₀ = .ok size)
    (hx : x.shape = (size.vars, 1)) (hx' : x.add (dx.scale alpha) = .ok x')
    (hv : size.values p kind x = .ok v) (hj : size.jacobians p kind x = .ok j) :
    ∃ v', size.values p kind x' = .ok v' ∧ v'.shape = v.shape ∧
      ∀ i, v'.coeff i 0 =
        v.coeff i 0 + alpha * ∑ l : Fin size.vars, j.coeff i l * dx.coeff l 0 := by
  have hxshape : x'.shape = (size.vars, 1) := (Matrix.shape_of_zipWith?_eq_ok hx').trans hx
  rw [hp.steady.values_eq hsize hx] at hv
  rw [hp.steady.jacobians_eq hsize hx] at hj
  rw [hp.steady.values_eq hsize hxshape]
  obtain ⟨v₁, j₁, v', hv₁, hj₁, hv', hshape, hcoeff⟩ := (hp.stacked kind).along hx hx'
  obtain rfl := Except.ok.inj (hv.symm.trans hv₁)
  obtain rfl := Except.ok.inj (hj.symm.trans hj₁)
  exact ⟨v', hv', hshape, hcoeff⟩

end Program

end InteriorPoint
