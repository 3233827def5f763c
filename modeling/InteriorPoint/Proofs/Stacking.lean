import Mathlib
import InteriorPoint.Proofs.Faults

/-!
# Proofs/Stacking — constraints of a kind, stacked

A run asks a program for its constraints block by block, holds each answer to a shape and stacks
what it is given. For a program whose blocks have fixed rows, none of that can be seen:
`stackedValues` and `stackedJacobians` are the stacks with no dimensions to hold them to, and they
are what the run works with (`Steady.values_eq`, `Steady.jacobians_eq`).
-/

namespace InteriorPoint

variable {α : Type} {p q : Program α} {kind : ConstraintKind} {x x₀ : Matrix α} {size : Size}

/-! ## Stacks without dimensions -/

namespace Program

/-- **The values of all blocks of a kind** at a point, in the order of declaration. -/
def stackedValues (p : Program α) (kind : ConstraintKind) (x : Matrix α) :
    Except (Error α) (Matrix α) := do
  let parts ← (p.constraints.filter (·.kind = kind)).mapM fun c => c.value x
  return Matrix.column (parts.toArray.flatMap Matrix.data)

/-- **The Jacobians of all blocks of a kind** at a point, in the order of declaration, under a
matrix without rows that has a column per variable. -/
def stackedJacobians (p : Program α) (kind : ConstraintKind) (x : Matrix α) :
    Except (Error α) (Matrix α) := do
  let parts ← (p.constraints.filter (·.kind = kind)).mapM fun c => c.jacobian x
  Matrix.stack (Matrix.noRows x.rows :: parts)

/-! A kind with one block is not stacked at all. -/

theorem stackedValues_singleton {c : Constraint α} {v : Matrix α}
    (h : p.constraints.filter (·.kind = kind) = [c]) (hv : c.value x = .ok v) (hcols : v.cols = 1) :
    p.stackedValues kind x = .ok v := by
  obtain ⟨rows, cols, data, hsize⟩ := v
  obtain rfl : cols = 1 := hcols
  simp [stackedValues, h, hv, Matrix.column, hsize]

theorem stackedJacobians_singleton {c : Constraint α} {j : Matrix α}
    (h : p.constraints.filter (·.kind = kind) = [c]) (hj : c.jacobian x = .ok j)
    (hcols : j.cols = x.rows) : p.stackedJacobians kind x = .ok j := by
  have hstack : Matrix.stack [Matrix.noRows x.rows, j] = .ok j := by
    have hfit : (Matrix.noRows x.rows : Matrix α).cols = j.cols := hcols.symm
    rw [Matrix.stack_cons, List.foldlM_cons, Matrix.placeBelow, dif_pos hfit]
    obtain ⟨rows, cols, data, hsize⟩ := j
    obtain rfl : cols = x.rows := hcols
    simp [Matrix.above, Matrix.noRows]
  simp only [stackedJacobians, h, List.mapM_cons, List.mapM_nil, hj]
  exact hstack

end Program

namespace Size

/-- The blocks that have dimensions are the blocks of the program. -/
theorem map_fst_blocksOf (hm : size.Measures p) (kind : ConstraintKind) :
    (size.blocksOf p kind).map Prod.fst = p.constraints.filter (·.kind = kind) := by
  have hlength : p.constraints.length ≤ size.blocks.length := by
    rw [← List.length_map Constraint.kind, ← List.length_map Prod.fst, hm]
  have hfilter : ((p.constraints.zip size.blocks).filter (·.1.kind = kind)).map Prod.fst =
      ((p.constraints.zip size.blocks).map Prod.fst).filter (·.kind = kind) := by
    rw [List.filter_map]
    rfl
  rw [List.map_fst_zip hlength] at hfilter
  rw [← hfilter, blocksOf, List.map_map]
  rfl

end Size

/-! ## What the dimensions change -/

/-- Steps over a list of pairs that do not read the second component. -/
theorem mapM_fst {ε β γ δ : Type} {f : β × γ → Except ε δ} {g : β → Except ε δ} :
    ∀ {bs : List (β × γ)}, (∀ b ∈ bs, f b = g b.1) → bs.mapM f = (bs.map Prod.fst).mapM g
  | [], _ => rfl
  | b :: bs, h => by
    obtain ⟨hb, hbs⟩ := List.forall_mem_cons.mp h
    rw [List.mapM_cons, List.map_cons, List.mapM_cons, hb, mapM_fst hbs]

namespace Program

theorem blockValue_eq {c : Constraint α} {rows : ℕ}
    (h : ∃ m, c.value x = .ok m ∧ m.shape = (rows, 1)) : Size.blockValue x c rows = c.value x := by
  obtain ⟨m, hm, hshape⟩ := h
  rw [Size.blockValue, hm, ok_bind, if_pos hshape]
  rfl

theorem blockJacobian_eq {c : Constraint α} {rows vars : ℕ}
    (h : ∃ m, c.jacobian x = .ok m ∧ m.shape = (rows, vars)) :
    Size.blockJacobian vars x c rows = c.jacobian x := by
  obtain ⟨m, hm, hshape⟩ := h
  rw [Size.blockJacobian, hm, ok_bind, if_pos hshape]
  rfl

/-- **Blocks with fixed rows pass every check**, so the values that a run works with are the stacked
ones. -/
theorem Steady.values_eq (hp : p.Steady size.vars) (hsize : Size.compute p x₀ = .ok size)
    (hx : x.shape = (size.vars, 1)) : size.values p kind x = p.stackedValues kind x := by
  have hblocks := mapM_fst (g := fun c => c.value x) fun b (hb : b ∈ size.blocksOf p kind) =>
    blockValue_eq (hp.block hsize hb hx).1
  rw [Size.values, hblocks, Size.map_fst_blocksOf (Size.measures_of_compute hsize).1]
  rfl

/-- They can be formed. -/
theorem Steady.exists_values (hp : p.Steady size.vars) (hsize : Size.compute p x₀ = .ok size)
    (hx : x.shape = (size.vars, 1)) :
    ∃ v, size.values p kind x = .ok v ∧ v.shape = (size.count kind, 1) := by
  rcases hvalues : size.values p kind x with err | v
  · obtain hmap | ⟨_, _, hpure⟩ := bind_eq_error.mp hvalues
    · obtain ⟨⟨c, rows⟩, hc, herr⟩ := exists_of_mapM_eq_error hmap
      have herr : Size.blockValue x c rows = .error err := herr
      have hblock := (hp.block hsize hc hx).1
      rw [blockValue_eq hblock] at herr
      obtain ⟨m, hm, _⟩ := hblock
      cases herr.symm.trans hm
    · exact absurd hpure pure_ne_error
  · exact ⟨v, rfl, Size.shape_of_values_eq_ok (Size.measures_of_compute hsize).1 hvalues⟩

/-- **The Jacobians are the stacked ones, too.** -/
theorem Steady.jacobians_eq (hp : p.Steady size.vars) (hsize : Size.compute p x₀ = .ok size)
    (hx : x.shape = (size.vars, 1)) : size.jacobians p kind x = p.stackedJacobians kind x := by
  have hblocks := mapM_fst (g := fun c => c.jacobian x) fun b (hb : b ∈ size.blocksOf p kind) =>
    blockJacobian_eq (hp.block hsize hb hx).2
  have hrows : x.rows = size.vars := (Matrix.shape_eq_iff.mp hx).1
  rw [Size.jacobians, hblocks, Size.map_fst_blocksOf (Size.measures_of_compute hsize).1,
    stackedJacobians, hrows]

/-- **Blocks with fixed rows can be measured** at every column. -/
theorem Steady.exists_compute {n : ℕ} (hp : p.Steady n) (hx : x.shape = (n, 1)) :
    ∃ size, Size.compute p x = .ok size ∧ size.vars = n := by
  obtain ⟨hrows, hcols⟩ := Matrix.shape_eq_iff.mp hx
  rcases hblocks : p.constraints.mapM (Size.measure x) with err | blocks
  · obtain ⟨c, hc, hmeasure⟩ := exists_of_mapM_eq_error hblocks
    obtain ⟨rows, hsteady⟩ := hp c hc
    obtain ⟨⟨m, hm, hshape⟩, _⟩ := hsteady x hx
    rw [Size.measure, hm, ok_bind, Matrix.requireColumn,
      if_pos (Matrix.shape_eq_iff.mp hshape).2] at hmeasure
    exact absurd hmeasure pure_ne_error
  · refine ⟨⟨x.rows, blocks⟩, ?_, hrows⟩
    rw [Size.compute, if_neg (not_not.mpr hcols), hblocks]
    rfl

end Program

/-! ## Programs that answer every question -/

/-- **A program that answers every question about points with `n` entries**, with the dimensions
that it has at one of them. -/
structure Program.TotalWith (p : Program α) (n : ℕ) (size : Size) : Prop where
  total : p.Total n
  vars : size.vars = n
  learned : ∃ x₀, Size.compute p x₀ = .ok size

namespace Program.TotalWith

variable {n : ℕ}

theorem values_eq (h : p.TotalWith n size) (hx : x.shape = (n, 1)) :
    size.values p kind x = p.stackedValues kind x := by
  obtain ⟨total, rfl, x₀, hsize⟩ := h
  exact total.steady.values_eq hsize hx

theorem jacobians_eq (h : p.TotalWith n size) (hx : x.shape = (n, 1)) :
    size.jacobians p kind x = p.stackedJacobians kind x := by
  obtain ⟨total, rfl, x₀, hsize⟩ := h
  exact total.steady.jacobians_eq hsize hx

theorem exists_values (h : p.TotalWith n size) (hx : x.shape = (n, 1)) :
    ∃ v, size.values p kind x = .ok v ∧ v.shape = (size.count kind, 1) := by
  obtain ⟨total, rfl, x₀, hsize⟩ := h
  exact total.steady.exists_values hsize hx

end Program.TotalWith

end InteriorPoint
