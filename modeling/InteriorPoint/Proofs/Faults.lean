import Mathlib
import InteriorPoint.LineSearch
import InteriorPoint.Proofs.Fit
import InteriorPoint.Proofs.Matrix.Grid

/-!
# Proofs/Faults — what asking a program can fail with

A program is asked for its objective, its gradient, and values and Jacobians of its constraints, and
each answer is held to a shape.  So asking at a point fails with what one of the functions fails
with there, or with the two shapes that differ: that is a `Fault`.  Putting the answers together
adds no failure of its own, as the shapes have been checked.

* `Evaluation.fault_of_compute` — an evaluation fails with a fault, or on a value that is not
  finite.
* `LineSearch.fault_of_search` — a line search fails with a fault at its start or at a trial point.
-/

namespace InteriorPoint

variable {α : Type}

namespace Program

/-- **The questions to a program** of given dimensions: its functions, each with the operation that
the answer is checked under and the shape it is held to. -/
inductive Question (p : Program α) (size : Size) : Operation → MatrixFunction α → Shape → Prop where
  | objective : Question p size .objective p.objective (1, 1)
  | gradient : Question p size .gradient p.gradient (size.vars, 1)
  | value {kind : ConstraintKind} {c : Constraint α} {rows : ℕ}
    (hc : (c, rows) ∈ size.blocksOf p kind) : Question p size .constraintValue c.value (rows, 1)
  | jacobian {kind : ConstraintKind} {c : Constraint α} {rows : ℕ}
    (hc : (c, rows) ∈ size.blocksOf p kind) :
    Question p size .constraintJacobian c.jacobian (rows, size.vars)

theorem Question.op_mem {p : Program α} {size : Size} {op : Operation} {f : MatrixFunction α}
    {shape : Shape} (h : p.Question size op f shape) :
    op ∈ [.gradient, .constraintValue, .constraintJacobian, .objective] := by
  cases h <;> decide

/-- **What asking a program at a point fails with.** -/
inductive Fault (p : Program α) (size : Size) (x : Matrix α) : Error α → Prop where
  /-- A function fails there. -/
  | raised {op : Operation} {f : MatrixFunction α} {shape : Shape} {err : Error α}
    (hf : p.Question size op f shape) (h : f x = .error err) : Fault p size x err
  /-- A function gives a matrix of a shape other than the one it is held to. -/
  | misshapen {op : Operation} {f : MatrixFunction α} {m : Matrix α} {shape : Shape}
    (hf : p.Question size op f shape) (h : f x = .ok m) (hne : m.shape ≠ shape) :
    Fault p size x (.mismatch op m.shape shape)

/-- A function of a program that is held to a shape. -/
theorem fault_of_held {p : Program α} {size : Size} {op : Operation} {f : MatrixFunction α}
    {x : Matrix α} {shape : Shape} {err : Error α} (hf : p.Question size op f shape)
    (h : (f x >>= fun m => if m.shape = shape then pure m
      else throw (.mismatch op m.shape shape) : Except (Error α) (Matrix α)) = .error err) :
    p.Fault size x err := by
  obtain hraised | ⟨m, hm, h⟩ := bind_eq_error.mp h
  · exact .raised hf hraised
  · split at h
    · exact absurd h pure_ne_error
    · rename_i hne
      obtain rfl := Except.error.inj h
      exact .misshapen hf hm hne

/-- **A program that answers every question** about points with `n` entries, with matrices of fixed
shapes. -/
structure Total (p : Program α) (n : ℕ) : Prop where
  objective : ∀ x, x.shape = (n, 1) → ∃ m, p.objective x = .ok m ∧ m.shape = (1, 1)
  gradient : ∀ x, x.shape = (n, 1) → ∃ m, p.gradient x = .ok m ∧ m.shape = (n, 1)
  constraint : ∀ c ∈ p.constraints, ∃ rows, ∀ x, x.shape = (n, 1) →
    (∃ m, c.value x = .ok m ∧ m.shape = (rows, 1)) ∧
      ∃ m, c.jacobian x = .ok m ∧ m.shape = (rows, n)

/-- **A program whose constraints never fail** at points with `n` entries, and whose blocks have
fixed rows: so many entries in the value, and so many rows with `n` entries in the Jacobian. -/
def Steady (p : Program α) (n : ℕ) : Prop :=
  ∀ c ∈ p.constraints, ∃ rows, ∀ x, x.shape = (n, 1) →
    (∃ m, c.value x = .ok m ∧ m.shape = (rows, 1)) ∧
      ∃ m, c.jacobian x = .ok m ∧ m.shape = (rows, n)

theorem Total.steady {p : Program α} {n : ℕ} (hp : p.Total n) : p.Steady n := hp.constraint

variable {p : Program α} {size : Size} {x x₀ : Matrix α}

/-- The fixed rows of a block are those it is held to. -/
theorem Steady.block (hp : p.Steady size.vars) (hsize : Size.compute p x₀ = .ok size)
    {kind : ConstraintKind} {c : Constraint α} {rows : ℕ} (hc : (c, rows) ∈ size.blocksOf p kind)
    (hx : x.shape = (size.vars, 1)) :
    (∃ m, c.value x = .ok m ∧ m.shape = (rows, 1)) ∧
      ∃ m, c.jacobian x = .ok m ∧ m.shape = (rows, size.vars) := by
  obtain ⟨hmem, v, hv, rfl⟩ := Size.measured_of_mem_blocksOf hsize hc
  obtain ⟨rows, hrows⟩ := hp c hmem
  obtain ⟨⟨m, hm, hshape⟩, _⟩ := hrows x₀ (Size.measures_of_compute hsize).2
  obtain rfl := Except.ok.inj (hv.symm.trans hm)
  rw [(Matrix.shape_eq_iff.mp hshape).1]
  exact hrows x hx

/-- **A program that answers every question is never at fault.** -/
theorem Total.not_fault (hp : p.Total size.vars) (hsize : Size.compute p x₀ = .ok size)
    (hx : x.shape = (size.vars, 1)) {err : Error α} : ¬p.Fault size x err := by
  have hanswer : ∀ {op f shape}, p.Question size op f shape →
      ∃ m, f x = .ok m ∧ m.shape = shape := by
    rintro _ _ _ (_ | _ | hc | hc)
    · exact hp.objective x hx
    · exact hp.gradient x hx
    · exact (hp.steady.block hsize hc hx).1
    · exact (hp.steady.block hsize hc hx).2
  rintro (⟨hf, hraised⟩ | ⟨hf, hm, hne⟩)
  · obtain ⟨m, hm, _⟩ := hanswer hf
    exact nomatch hm.symm.trans hraised
  · obtain ⟨m', hm', hshape⟩ := hanswer hf
    obtain rfl := Except.ok.inj (hm.symm.trans hm')
    exact hne hshape

end Program

/-! ## Evaluations -/

variable {p : Program α} {size : Size} {kind : ConstraintKind} {x : Matrix α} {err : Error α}

namespace Size

theorem fault_of_values (h : size.values p kind x = .error err) : p.Fault size x err := by
  obtain hmap | ⟨_, _, hpure⟩ := bind_eq_error.mp h
  · obtain ⟨⟨c, rows⟩, hmem, herr⟩ := exists_of_mapM_eq_error hmap
    exact Program.fault_of_held (.value hmem) herr
  · exact absurd hpure pure_ne_error

variable [Scalar α]

theorem fault_of_jacobians (h : size.jacobians p kind x = .error err) : p.Fault size x err := by
  obtain hmap | ⟨parts, hparts, hstack⟩ := bind_eq_error.mp h
  · obtain ⟨⟨c, rows⟩, hmem, herr⟩ := exists_of_mapM_eq_error hmap
    exact Program.fault_of_held (.jacobian hmem) herr
  · -- every part is as wide as the empty matrix on top, so they can be stacked
    have hcols : ∀ m ∈ Matrix.noRows size.vars :: parts, m.cols = size.vars := by
      refine List.forall_mem_cons.mpr ⟨rfl, fun m hm => ?_⟩
      obtain ⟨_, _, hm⟩ := exists_of_mem_mapM hparts hm
      exact (Matrix.shape_eq_iff.mp (shape_of_blockJacobian_eq_ok hm)).2
    obtain ⟨_, hok, _⟩ := Matrix.exists_stack _ parts hcols
    exact nomatch hok.symm.trans hstack

end Size

namespace Evaluation

variable [Scalar α]

theorem eq_breakdown_of_requireFinite {e : Evaluation α} (h : e.requireFinite = .error err) :
    ∃ q v, err = .breakdown q v ∧ Scalar.isFinite v = false := by
  simp only [requireFinite, bind_eq_error] at h
  obtain h | ⟨_, _, h | ⟨_, _, h | ⟨_, _, h | ⟨_, _, h⟩⟩⟩⟩ := h
  all_goals exact ⟨_, Matrix.eq_breakdown_of_requireFinite h⟩

/-- **An evaluation fails with a fault of the program**, or on a value that is not finite. -/
theorem fault_of_compute (h : compute p size x = .error err) :
    p.Fault size x err ∨ ∃ q v, err = .breakdown q v ∧ Scalar.isFinite v = false := by
  simp only [compute, bind_eq_error] at h
  obtain h | ⟨_, _, h | ⟨_, _, h | ⟨_, _, h | ⟨_, _, h | ⟨_, _, h | ⟨_, _, h⟩⟩⟩⟩⟩⟩ := h
  · exact .inl (Program.fault_of_held .gradient h)
  · exact .inl (Size.fault_of_values h)
  · exact .inl (Size.fault_of_values h)
  · exact .inl (Size.fault_of_jacobians h)
  · exact .inl (Size.fault_of_jacobians h)
  · exact .inr (eq_breakdown_of_requireFinite h)
  · exact absurd h pure_ne_error

end Evaluation

/-! ## Line searches -/

namespace LineSearch

variable [Scalar α] {ls : LineSearch α} {s : Matrix α} {d : Direction α} {mu : α}

theorem fault_of_violation (hm : ls.size.Measures ls.program)
    (hs : s.shape = (ls.size.inequalities, 1)) (h : ls.violation x s = .error err) :
    ls.program.Fault ls.size x err := by
  simp only [violation, bind_eq_error] at h
  obtain h | ⟨_, _, h | ⟨v, hv, h | ⟨_, _, h⟩⟩⟩ := h
  · exact Size.fault_of_values h
  · exact Size.fault_of_values h
  · have hok : v.subtract s = _ :=
      Matrix.zipWith?_eq_ok ((Size.shape_of_values_eq_ok hm hv).trans hs.symm)
    exact nomatch hok.symm.trans h
  · exact absurd h pure_ne_error

theorem fault_of_merit (h : ls.merit x s mu = .error err) : ls.program.Fault ls.size x err := by
  simp only [merit, objective, bind_eq_error] at h
  obtain (h | ⟨f, hf, h⟩) | ⟨_, _, h⟩ := h
  · exact .raised .objective h
  · split at h
    · exact absurd h pure_ne_error
    · rename_i hne
      obtain rfl := Except.error.inj h
      exact .misshapen .objective hf fun hshape => hne (Matrix.shape_eq_iff.mp hshape)
  · exact absurd h pure_ne_error

theorem fault_of_measure (hm : ls.size.Measures ls.program)
    (hs : s.shape = (ls.size.inequalities, 1)) (h : ls.measure x s mu = .error err) :
    ls.program.Fault ls.size x err := by
  simp only [measure, bind_eq_error] at h
  obtain h | ⟨_, _, h | ⟨_, _, h⟩⟩ := h
  · exact fault_of_violation hm hs h
  · exact fault_of_merit h
  · exact absurd h pure_ne_error

/-- A trial is measured at a point on the way from `x` along the direction. -/
theorem fault_of_trial {alpha : α} (hm : ls.size.Measures ls.program)
    (hs : s.shape = (ls.size.inequalities, 1)) (hdx : d.dx.shape = x.shape)
    (hds : d.ds.shape = s.shape) (h : ls.trial x s d mu alpha = .error err) :
    ∃ x', x.add (d.dx.scale alpha) = .ok x' ∧ ls.program.Fault ls.size x' err := by
  obtain ⟨x', hx', _⟩ := Matrix.exists_add_scale rfl hdx alpha
  obtain ⟨s', hs', hshape⟩ := Matrix.exists_add_scale hs (hds.trans hs) alpha
  rw [trial, hx', ok_bind, hs', ok_bind] at h
  exact ⟨x', hx', fault_of_measure hm hshape h⟩

theorem fault_of_backtrack {alphaMax : α} {start : Measures α} (hm : ls.size.Measures ls.program)
    (hs : s.shape = (ls.size.inequalities, 1)) (hdx : d.dx.shape = x.shape)
    (hds : d.ds.shape = s.shape) :
    ∀ {left l : ℕ} {last : α},
      (ls.backtrack x s d alphaMax mu start left l last).result = .error err →
      ∃ alpha x', x.add (d.dx.scale alpha) = .ok x' ∧ ls.program.Fault ls.size x' err
  | 0, _, _, h => nomatch h
  | left + 1, l, last, h => by
    simp only [backtrack, Traced.result_bind, except_bind_eq_error, Traced.result_liftM,
      Traced.result_note] at h
    obtain h | ⟨m, _, h | ⟨_, _, h⟩⟩ := h
    · exact ⟨_, fault_of_trial hm hs hdx hds h⟩
    · exact nomatch h
    · split at h
      · exact nomatch h
      · exact fault_of_backtrack hm hs hdx hds h

/-- **A line search fails with a fault of the program**, at its start or on the way along the
direction. -/
theorem fault_of_search {alphaMax : α} (hm : ls.size.Measures ls.program)
    (hs : s.shape = (ls.size.inequalities, 1)) (hdx : d.dx.shape = x.shape)
    (hds : d.ds.shape = s.shape) (h : (ls.search x s d alphaMax mu).result = .error err) :
    ls.program.Fault ls.size x err ∨
      ∃ alpha x', x.add (d.dx.scale alpha) = .ok x' ∧ ls.program.Fault ls.size x' err := by
  simp only [search, Traced.result_bind, except_bind_eq_error, Traced.result_liftM] at h
  obtain h | ⟨_, _, h⟩ := h
  · exact .inl (fault_of_measure hm hs h)
  · exact .inr (fault_of_backtrack hm hs hdx hds h)

end LineSearch

end InteriorPoint
