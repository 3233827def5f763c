import Mathlib
import InteriorPoint.Proofs.Stacking
import InteriorPoint.Proofs.Solver.Calls
import InteriorPoint.Proofs.Solver.Progress

/-!
# Proofs/Solver/Stacking — how constraints are divided into blocks cannot be seen

Two programs may divide the same constraints into blocks differently: equalities and inequalities
interleaved in another way, a block split into several, empty blocks in between. As long as the
stacked values and Jacobians of each kind are the same (`Program.SameStacks`), a solver that works
on one of them can be *hosted* by the other, with the dimensions of that one: no part of the method
can tell, from the line search up to whole sequences of calls. The arithmetic does not matter.

* `calls_of_sameStacks` — both programs give the same answers to the same calls, and lead to the
  same states.
-/

namespace InteriorPoint

variable {α σ : Type} {p q : Program α} {size size' : Size}

/-! ## Programs with the same stacks -/

/-- **Programs with the same stacked constraints** at points with `n` entries. -/
structure Program.SameStacks (p q : Program α) (n : ℕ) : Prop where
  left : p.Steady n
  right : q.Steady n
  values : ∀ kind x, x.shape = (n, 1) → q.stackedValues kind x = p.stackedValues kind x
  jacobians : ∀ kind x, x.shape = (n, 1) → q.stackedJacobians kind x = p.stackedJacobians kind x

/-- **Programs that give a run the same answers**, each with its own dimensions. -/
structure SameAnswers (p : Program α) (size : Size) (q : Program α) (size' : Size) : Prop where
  vars : size'.vars = size.vars
  count : ∀ kind, size'.count kind = size.count kind
  objective : q.objective = p.objective
  gradient : q.gradient = p.gradient
  values : ∀ kind x, x.shape = (size.vars, 1) → size'.values q kind x = size.values p kind x
  jacobians : ∀ kind x, x.shape = (size.vars, 1) →
    size'.jacobians q kind x = size.jacobians p kind x

/-- Programs with the same stacks give the same answers, with the dimensions that each of them has
at a common point. -/
theorem Program.SameStacks.sameAnswers {x : Matrix α} (h : p.SameStacks q size.vars)
    (hobjective : q.objective = p.objective) (hgradient : q.gradient = p.gradient)
    (hsize : Size.compute p x = .ok size) (hsize' : Size.compute q x = .ok size') :
    SameAnswers p size q size' := by
  obtain ⟨hmeasures, hx⟩ := Size.measures_of_compute hsize
  obtain ⟨hmeasures', hx'⟩ := Size.measures_of_compute hsize'
  have hvars : size'.vars = size.vars := congrArg Prod.fst (hx'.symm.trans hx)
  have hright : q.Steady size'.vars := hvars ▸ h.right
  have hvalues : ∀ kind x, x.shape = (size.vars, 1) →
      size'.values q kind x = size.values p kind x := by
    intro kind x hx
    rw [hright.values_eq hsize' (hvars ▸ hx), h.left.values_eq hsize hx, h.values kind x hx]
  refine ⟨hvars, ?_, hobjective, hgradient, hvalues, ?_⟩
  · intro kind
    obtain ⟨v, hv, hshape⟩ : ∃ v, size.values p kind x = .ok v ∧ v.shape = (size.count kind, 1) :=
      h.left.exists_values hsize hx
    have hshape' := Size.shape_of_values_eq_ok hmeasures' ((hvalues kind x hx).trans hv)
    exact congrArg Prod.fst (hshape'.symm.trans hshape)
  · intro kind x hx
    rw [hright.jacobians_eq hsize' (hvars ▸ hx), h.left.jacobians_eq hsize hx,
      h.jacobians kind x hx]

/-- **Programs with the same stacks measure alike**: both refuse what is no column, and otherwise
each has dimensions of its own, with which they give the same answers. -/
theorem Program.SameStacks.compute_cases {x : Matrix α} (h : p.SameStacks q x.rows)
    (hobjective : q.objective = p.objective) (hgradient : q.gradient = p.gradient) :
    (∃ err, Size.compute p x = .error err ∧ Size.compute q x = .error err) ∨
      ∃ size size', Size.compute p x = .ok size ∧ Size.compute q x = .ok size' ∧
        SameAnswers p size q size' := by
  by_cases hcols : x.cols = 1
  · have hx : x.shape = (x.rows, 1) := Matrix.shape_eq_iff.mpr ⟨rfl, hcols⟩
    obtain ⟨size, hsize, hvars⟩ := h.left.exists_compute hx
    obtain ⟨size', hsize', _⟩ := h.right.exists_compute hx
    rw [← hvars] at h
    exact .inr ⟨size, size', hsize, hsize', h.sameAnswers hobjective hgradient hsize hsize'⟩
  · refine .inl ⟨.invalidShape x.rows x.cols, ?_, ?_⟩
    · rw [Size.compute, if_pos hcols]
      rfl
    · rw [Size.compute, if_pos hcols]
      rfl

namespace SameAnswers

variable [Scalar α] {x s : Matrix α} (o : Options α)

theorem compute_eq (h : SameAnswers p size q size') (hx : x.shape = (size.vars, 1)) :
    Evaluation.compute q size' x = Evaluation.compute p size x := by
  have hgradient : Evaluation.objectiveGradient q size' x =
      Evaluation.objectiveGradient p size x := by
    rw [Evaluation.objectiveGradient, Evaluation.objectiveGradient, h.gradient, h.vars]
  simp only [Evaluation.compute, hgradient, h.values _ x hx, h.jacobians _ x hx]

theorem measure_eq (h : SameAnswers p size q size') (hx : x.shape = (size.vars, 1))
    (mu : α) :
    (LineSearch.ofOptions q size' o).measure x s mu =
      (LineSearch.ofOptions p size o).measure x s mu := by
  have hviolation : (LineSearch.ofOptions q size' o).violation x s =
      (LineSearch.ofOptions p size o).violation x s := by
    simp only [LineSearch.violation, LineSearch.ofOptions, h.values _ x hx]
  have hmerit : (LineSearch.ofOptions q size' o).merit x s mu =
      (LineSearch.ofOptions p size o).merit x s mu := by
    simp only [LineSearch.merit, LineSearch.objective, LineSearch.ofOptions, h.objective]
  rw [LineSearch.measure, LineSearch.measure, hviolation, hmerit]

/-- A trial is made at a point with as many entries as the one it starts from. -/
theorem trial_eq (h : SameAnswers p size q size') (hx : x.shape = (size.vars, 1))
    (d : Direction α) (mu alpha : α) :
    (LineSearch.ofOptions q size' o).trial x s d mu alpha =
      (LineSearch.ofOptions p size o).trial x s d mu alpha := by
  refine bind_congr_ok fun x' hx' => bind_congr_ok fun s' _ => ?_
  exact h.measure_eq o ((Matrix.shape_of_zipWith?_eq_ok hx').trans hx) mu

/-- **A line search cannot tell the programs apart.** -/
theorem search_eq (h : SameAnswers p size q size') (hx : x.shape = (size.vars, 1))
    (d : Direction α) (alphaMax mu : α) :
    (LineSearch.ofOptions q size' o).search x s d alphaMax mu =
      (LineSearch.ofOptions p size o).search x s d alphaMax mu :=
  LineSearch.search_congr (h.measure_eq o hx mu) (h.trial_eq o hx d mu) alphaMax

end SameAnswers

/-! ## A solver hosted by another program -/

namespace Solver

variable {s t : Solver α}

/-- **The solver with another program** in place of its own. -/
def hosted (s : Solver α) (q : Program α) (size' : Size) : Solver α :=
  { s with program := q, size := size' }

variable [Scalar α]

/-- **A Newton step cannot tell.** -/
theorem advance_hosted (h : SameAnswers s.program s.size q size')
    (hx : s.iterate.x.shape = (s.size.vars, 1)) (e : Evaluation α) (r : Residual α) :
    (s.hosted q size').advance e r = s.advance e r := by
  rw [advance, advance]
  refine Traced.bind_congr_ok fun d _ => Traced.bind_congr_ok fun alphaMax _ =>
    Traced.bind_congr_ok fun alphaDual _ => ?_
  -- the program is asked in the line search and at the new point
  have hsearch := h.search_eq (s := s.iterate.s) s.options hx d alphaMax
    ((Barrier.ofOptions s.options).update r s.iterate.mu)
  simp only [hosted, hsearch]
  refine Traced.bind_congr_ok fun found _ => Traced.bind_congr_ok fun x hx' =>
    Traced.bind_congr_ok fun slacks _ => Traced.bind_congr_ok fun y _ =>
    Traced.bind_congr_ok fun z _ => Traced.bind_congr_ok fun _ _ => ?_
  rw [h.compute_eq ((Matrix.shape_of_zipWith?_eq_ok hx').trans hx)]

/-- **A look at the iterate cannot tell.** -/
theorem examine_hosted (h : SameAnswers s.program s.size q size')
    (hx : s.iterate.x.shape = (s.size.vars, 1)) :
    (s.hosted q size').examine = (s.examine.1, s.examine.2.hosted q size') := by
  have hassess : (s.hosted q size').assess = s.assess := by
    simp only [assess, hosted, h.compute_eq hx]
  simp only [examine, hassess]
  change (if s.options.maxIterations ≤ s.iterations then _ else _) = _
  split
  · rfl
  · split
    · rfl
    · change (if Residual.isOptimal _ 0 s.options.globalTolerance then _ else _) = _
      split <;> rfl

/-- **A step cannot tell.** -/
theorem Settled.step_hosted (hs : Settled s) (h : SameAnswers s.program s.size q size') :
    (s.hosted q size').step = (s.step.1, s.step.2.hosted q size') := by
  have hphase : (s.hosted q size').phase = s.phase := rfl
  simp only [step, hphase]
  split
  · rfl
  · exact examine_hosted h hs.fits.x
  · rename_i e r _
    rw [advance_hosted h hs.fits.x]
    rcases hadvance : s.advance e r with ⟨events, err | ⟨it, next⟩⟩
    · rfl
    · have hcommit : (s.hosted q size').commit it next = (s.commit it next).hosted q size' := rfl
      have hcommitted : Consistent (s.commit it next) :=
        hs.toConsistent.commit (e := e) (r := r) (by rw [hadvance])
      simp only [hcommit, examine_hosted (s := s.commit it next) h hcommitted.fits.x]

/-! ## Two solvers side by side -/

/-- **A solver that works on `p`, and the same one hosted by `q`.** -/
structure Alike (p q : Program α) (s t : Solver α) : Prop where
  settled : Settled s
  program : s.program = p
  answers : SameAnswers p s.size q t.size
  eq_hosted : t = s.hosted q t.size

theorem Alike.step (h : Alike p q s t) : t.step.1 = s.step.1 ∧ Alike p q s.step.2 t.step.2 := by
  obtain ⟨hs, rfl, hanswers, ht⟩ := h
  have hstep := hs.step_hosted hanswers
  rw [← ht] at hstep
  have hsize := s.steps.size_eq
  rw [hstep]
  exact ⟨rfl, s.steps.settled hs, s.steps.settings.1, hsize ▸ hanswers, rfl⟩

/-- The end of the stream of records makes no difference. -/
theorem Alike.mark (h : Alike p q s t) (ended : Bool) :
    Alike p q (s.mark ended) (t.mark ended) := by
  refine ⟨h.settled.ended ended, h.program, h.answers, ?_⟩
  rw [h.eq_hosted]
  rfl

/-- **A driven run cannot tell**: it asks for one step after the other. -/
theorem Drives.alike {hooks : Hooks σ α} {st : σ} {log : Log α} {d : Driven σ α}
    (h : Drives hooks st s log d) (hst : Alike p q s t) :
    ∃ t', t.drive hooks st = ⟨d.events, d.verdict, d.hooks, t'⟩ ∧ Alike p q d.solver t' := by
  induction h generalizing t with
  | broken hresult =>
    obtain ⟨hrecord, hst'⟩ := hst.step
    exact ⟨t.step.2, by rw [drive_eq, hrecord, hresult], hst'⟩
  | optimal hresult hprogress =>
    obtain ⟨hrecord, hst'⟩ := hst.step
    refine ⟨t.step.2, ?_, hst'⟩
    simp only [drive_eq hooks _ t, hrecord, hresult, hprogress]
  | exhausted hresult hprogress =>
    obtain ⟨hrecord, hst'⟩ := hst.step
    refine ⟨t.step.2, ?_, hst'⟩
    simp only [drive_eq hooks _ t, hrecord, hresult, hprogress]
  | stopped hresult hprogress hjudge =>
    obtain ⟨hrecord, hst'⟩ := hst.step
    refine ⟨t.step.2, ?_, hst'⟩
    have hiterations := congrArg Solver.iterations hst'.eq_hosted
    simp only [drive_eq hooks _ t, hrecord, hresult, hprogress, hjudge, hiterations]
    rfl
  | continued hresult hprogress hjudge _ ih =>
    obtain ⟨hrecord, hst'⟩ := hst.step
    obtain ⟨t', hdrive, hend⟩ := ih hst'
    refine ⟨t', ?_, hend⟩
    rw [drive_eq]
    simp only [hrecord, hresult, hprogress, hjudge, hdrive]

/-! ## Calls -/

/-- Runs that begin at one point begin alike. -/
theorem alike_start {x : Matrix α} (h : SameAnswers p size q size') (o : Options α)
    (hsize : Size.compute p x = .ok size) : Alike p q (start p o size x) (start q o size' x) := by
  refine ⟨settled_start hsize, rfl, h, ?_⟩
  have hequalities : size'.equalities = size.equalities := h.count .equality
  have hinequalities : size'.inequalities = size.inequalities := h.count .inequality
  simp only [start, hosted, NewtonSystem.ofSize, Iterate.initial, h.vars, hequalities,
    hinequalities]

/-- Solvers that are created at one point are alike, or both refused. -/
theorem create_cases {x : Matrix α} (h : p.SameStacks q x.rows)
    (hobjective : q.objective = p.objective) (hgradient : q.gradient = p.gradient)
    (o : Options α) :
    (∃ err, create p x o = .error err ∧ create q x o = .error err) ∨
      ∃ s t, create p x o = .ok s ∧ create q x o = .ok t ∧ Alike p q s t := by
  rw [create, create]
  rcases o.validate with err | _
  · exact .inl ⟨err, rfl, rfl⟩
  · obtain ⟨err, hp, hq⟩ | ⟨size, size', hp, hq, hanswers⟩ :=
      h.compute_cases hobjective hgradient
    · exact .inl ⟨err, by rw [hp]; rfl, by rw [hq]; rfl⟩
    · exact .inr ⟨_, _, by rw [hp]; rfl, by rw [hq]; rfl, alike_start hanswers o hp⟩

/-- Solvers that are alike stay so when they are begun again, or are both refused. -/
theorem Alike.restart_cases (h : Alike p q s t) {x : Matrix α} (hx : p.SameStacks q x.rows) :
    (∃ err, s.restart x = .error err ∧ t.restart x = .error err) ∨
      ∃ s' t', s.restart x = .ok s' ∧ t.restart x = .ok t' ∧ Alike p q s' t' := by
  have hrestart : t.restart x = (do return start q s.options (← Size.compute q x) x) := by
    rw [h.eq_hosted]
    rfl
  rw [restart, hrestart, h.program]
  obtain ⟨err, hp, hq⟩ | ⟨size, size', hp, hq, hanswers⟩ :=
    hx.compute_cases h.answers.objective h.answers.gradient
  · exact .inl ⟨err, by rw [hp]; rfl, by rw [hq]; rfl⟩
  · exact .inr ⟨_, _, by rw [hp]; rfl, by rw [hq]; rfl, alike_start hanswers s.options hp⟩

/-- **No call can tell the programs apart.** -/
theorem Alike.call (h : Alike p q s t) {c : Call α}
    (hc : ∀ x, c = .restart x → p.SameStacks q x.rows) :
    (t.call c).1 = (s.call c).1 ∧ Alike p q (s.call c).2 (t.call c).2 := by
  cases c with
  | step =>
    obtain ⟨hrecord, hst⟩ := h.step
    exact ⟨congrArg Answer.step hrecord, hst⟩
  | next =>
    obtain ⟨hrecord, hst⟩ := h.step
    have hended : t.ended = s.ended := by
      rw [h.eq_hosted]
      rfl
    simp only [Solver.call, next, hended, hrecord]
    split
    · exact ⟨rfl, h⟩
    · exact ⟨rfl, hst.mark _⟩
  | solve hooks st =>
    obtain ⟨t', hdrive, hst⟩ := (drives hooks st s).alike h
    have hsolve : t.solve hooks st = _ := hdrive
    simp only [Solver.call, hsolve, true_and]
    exact hst
  | restart x =>
    obtain ⟨err, hs, ht⟩ | ⟨s', t', hs, ht, hst⟩ := h.restart_cases (hc x rfl)
    · simp only [Solver.call, hs, ht, true_and]
      exact h
    · simp only [Solver.call, hs, ht, true_and]
      exact hst

/-- **No sequence of calls can tell the programs apart.** -/
theorem Alike.calls (h : Alike p q s t) {cs : List (Call α)}
    (hcs : ∀ x, .restart x ∈ cs → p.SameStacks q x.rows) :
    (t.calls cs).1 = (s.calls cs).1 ∧ Alike p q (s.calls cs).2 (t.calls cs).2 := by
  induction cs generalizing s t with
  | nil => exact ⟨rfl, h⟩
  | cons c cs ih =>
    obtain ⟨hanswer, hst⟩ := h.call fun x (hc : c = .restart x) => hcs x (hc ▸ List.mem_cons_self)
    obtain ⟨hanswers, hend⟩ := ih hst fun x hx => hcs x (List.mem_cons_of_mem c hx)
    exact ⟨congrArg₂ List.cons hanswer hanswers, hend⟩

/-- **Only the stacked constraints matter**, in any arithmetic.  Two programs with the same
objective and gradient, whose blocks never fail and have fixed rows, and whose stacked values and
Jacobians of each kind are the same functions of points with so many entries as a run is begun with:
their solvers are refused with the same errors, give the same answers to every sequence of calls,
and end in the same state, the program and the rows of its blocks apart. -/
theorem calls_of_sameStacks {o : Options α} {x : Matrix α} {cs : List (Call α)} {N : Set ℕ}
    (hobjective : q.objective = p.objective) (hgradient : q.gradient = p.gradient)
    (hstacks : ∀ n ∈ N, p.SameStacks q n) (hx : x.rows ∈ N)
    (hcs : ∀ x, .restart x ∈ cs → x.rows ∈ N) :
    (∀ err, create q x o = .error err ↔ create p x o = .error err) ∧
    ∀ s, create p x o = .ok s →
      ∃ t, create q x o = .ok t ∧ (t.calls cs).1 = (s.calls cs).1 ∧
        (t.calls cs).2 = (s.calls cs).2.hosted q (t.calls cs).2.size ∧
        (t.calls cs).2.size.vars = (s.calls cs).2.size.vars ∧
        ∀ kind, (t.calls cs).2.size.count kind = (s.calls cs).2.size.count kind := by
  obtain ⟨err, hp, hq⟩ | ⟨s, t, hp, hq, hst⟩ :=
    create_cases (hstacks _ hx) hobjective hgradient o
  · rw [hp, hq]
    exact ⟨fun _ => Iff.rfl, nofun⟩
  · rw [hp, hq]
    refine ⟨fun _ => ⟨nofun, nofun⟩, ?_⟩
    rintro _ ⟨⟩
    obtain ⟨hcalls, _, _, hanswers, heq⟩ := hst.calls fun x hx => hstacks _ (hcs x hx)
    exact ⟨t, rfl, hcalls, heq, hanswers.vars, hanswers.count⟩

/-! ## A block split in two, around the others -/

/-- Two variables add up to one. -/
def unitSum : Constraint Float where
  kind := .equality
  value := fun x => do (← (Matrix.ones 2).transpose.multiply x).subtract (Matrix.ones 1)
  jacobian := fun _ => .ok (Matrix.ones 2).transpose

/-- One of two variables is not negative. -/
def coordinateBlock (i : ℕ) : Constraint Float where
  kind := .inequality
  value := fun x => x.slice i 0 1 1
  jacobian := fun _ => (Matrix.identity 2).slice i 0 1 2

/-- Nothing is asked for. -/
def emptyBlock : Constraint Float where
  kind := .equality
  value := fun _ => .ok (Matrix.column #[])
  jacobian := fun _ => .ok (Matrix.noRows 2)

/-- Two variables that are not negative and add up to one. -/
def jointProgram : Program Float where
  objective := fun x => x.transpose.multiply x
  gradient := fun x => .ok (x.scale 2.0)
  constraints := [⟨.inequality, .ok, fun _ => .ok (Matrix.identity 2)⟩, unitSum]
  initialGuess := Matrix.column #[4.0, 1.0]

/-- The same with a block for each variable, one before the sum and one after it. -/
def splitProgram : Program Float :=
  { jointProgram with
    constraints := [coordinateBlock 0, emptyBlock, unitSum, coordinateBlock 1] }

theorem steady_jointProgram : jointProgram.Steady 2 := by
  refine List.forall_mem_cons.mpr ⟨⟨2, ?_⟩, List.forall_mem_singleton.mpr ⟨1, ?_⟩⟩
  all_goals
    intro x hx
    obtain ⟨a, b, rfl⟩ := Matrix.exists_eq_column_pair hx
    exact ⟨⟨_, rfl, rfl⟩, _, rfl, rfl⟩

theorem steady_splitProgram : splitProgram.Steady 2 := by
  refine List.forall_mem_cons.mpr ⟨⟨1, ?_⟩, List.forall_mem_cons.mpr ⟨⟨0, ?_⟩,
    List.forall_mem_cons.mpr ⟨⟨1, ?_⟩, List.forall_mem_singleton.mpr ⟨1, ?_⟩⟩⟩⟩
  all_goals
    intro x hx
    obtain ⟨a, b, rfl⟩ := Matrix.exists_eq_column_pair hx
    exact ⟨⟨_, rfl, rfl⟩, _, rfl, rfl⟩

theorem sameStacks_splitProgram : jointProgram.SameStacks splitProgram 2 := by
  refine ⟨steady_jointProgram, steady_splitProgram, ?_, ?_⟩
  all_goals
    intro kind x hx
    obtain ⟨a, b, rfl⟩ := Matrix.exists_eq_column_pair hx
    cases kind <;> rfl

/-- Steps, a restart that is refused, one that is not, and another step. -/
def mixedCalls : List (Call Float) :=
  [.step, .next, .restart (Matrix.identity 2), .restart (Matrix.column #[1.0, 2.0]), .step]

/-- Both solvers take a Newton step, and are begun again. -/
theorem calls_of_sameStacks_split :
    ∃ s t, create jointProgram (Matrix.column #[4.0, 1.0]) .default = .ok s ∧
      create splitProgram (Matrix.column #[4.0, 1.0]) .default = .ok t ∧
      (s.after 2).iterations = 1 ∧ (t.calls mixedCalls).1 = (s.calls mixedCalls).1 ∧
      (t.calls mixedCalls).2 =
        (s.calls mixedCalls).2.hosted splitProgram (t.calls mixedCalls).2.size := by
  have hrestarts : ∀ x, .restart x ∈ mixedCalls → x.rows ∈ ({2} : Set ℕ) := by
    intro x hx
    simp only [mixedCalls, List.mem_cons, List.not_mem_nil, reduceCtorEq, Call.restart.injEq,
      false_or, or_false] at hx
    rcases hx with rfl | rfl <;> rfl
  have hstacks : ∀ n ∈ ({2} : Set ℕ), jointProgram.SameStacks splitProgram n := by
    rintro n rfl
    exact sameStacks_splitProgram
  obtain ⟨_, hcalls⟩ := calls_of_sameStacks (p := jointProgram) (q := splitProgram)
    (o := .default) (x := Matrix.column #[4.0, 1.0]) rfl rfl hstacks (Set.mem_singleton 2) hrestarts
  obtain ⟨t, ht, hanswers, hend, _⟩ :=
    hcalls (start jointProgram .default ⟨2, [(.inequality, 2), (.equality, 1)]⟩ _) rfl
  exact ⟨_, t, rfl, ht, by decide +kernel, hanswers, hend⟩

end Solver

end InteriorPoint
