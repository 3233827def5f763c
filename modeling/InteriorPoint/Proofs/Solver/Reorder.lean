import Mathlib
import InteriorPoint.Proofs.Reorder
import InteriorPoint.Proofs.Solver.Calls
import InteriorPoint.Proofs.Solver.Progress

/-!
# Proofs/Solver/Reorder — the order of variables and constraints does not matter

Over exact scalars, two programs that differ in the order of variables and constraints are solved
side by side. A look at corresponding iterates gives corresponding records
(`Consistent.examine_reordered`); a Newton step from there fails in both or leads to corresponding
iterates (`Reachable.advance_reordered`); so any number of steps does (`Reachable.after_reordered`).

* `run_reordered` — solvers of the two programs from corresponding points stay in step.
-/

open Equiv (Perm)
open InteriorPoint.Matrix (Permuted)

namespace InteriorPoint

variable {K : Type} [ExactScalar K] {n : ℕ} {m : ConstraintKind → ℕ} {σ : Perm (Fin n)}
  {ρ : ∀ kind, Perm (Fin (m kind))} {p q : Program K} {o : Options K}

/-! ## Records and solvers in another order -/

/-- **The record of the same iterate in another order**: nothing but the point differs. -/
structure Record.Reordered (σ : Perm (Fin n)) (a b : Record K) : Prop where
  x : Permuted σ a.x b.x
  primal : b.primal = a.primal
  dual : b.dual = a.dual
  progress : b.progress = a.progress
  iteration : b.iteration = a.iteration
  mu : b.mu = a.mu

/-- **Both calls fail, or both report**, and the records correspond. -/
inductive Outcomes (σ : Perm (Fin n)) :
    Except (Error K) (Record K) → Except (Error K) (Record K) → Prop where
  | failed (err err' : Error K) : Outcomes σ (.error err) (.error err')
  | reported {a b : Record K} (h : Record.Reordered σ a b) : Outcomes σ (.ok a) (.ok b)

theorem Outcomes.exists_reordered {a b : Except (Error K) (Record K)} (h : Outcomes σ a b)
    (hok : a.isOk = true) : ∃ u v, a = .ok u ∧ b = .ok v ∧ Record.Reordered σ u v := by
  cases h with
  | failed => cases hok
  | reported h => exact ⟨_, _, rfl, rfl, h⟩

/-- Phases that correspond.  What a step starts from is determined by the iterate. -/
inductive Phase.Reordered (σ : Perm (Fin n)) : Phase K → Phase K → Prop where
  | ready : Phase.Reordered σ .ready .ready
  | stepping (e e' : Evaluation K) (r r' : Residual K) :
    Phase.Reordered σ (.stepping e r) (.stepping e' r')
  | finished {a b : Record K} {ha : a.progress ≠ .pending} {hb : b.progress ≠ .pending}
    (h : Record.Reordered σ a b) : Phase.Reordered σ (.finished a ha) (.finished b hb)

namespace Solver

variable {s t : Solver K}

/-- **A solver in another order.** -/
structure Reordered (σ : Perm (Fin n)) (ρ : ∀ kind, Perm (Fin (m kind))) (s t : Solver K) :
    Prop where
  iterate : Iterate.Reordered σ ρ s.iterate t.iterate
  phase : Phase.Reordered σ s.phase t.phase
  options : t.options = s.options
  iterations : t.iterations = s.iterations

/-! ## What a solver of a total program can rely on -/

theorem Consistent.system_eq {a b : ℕ} (hs : Consistent s) (h : s.iterate.Fits n a b) :
    s.system = ⟨n, a, b⟩ := by
  have hvars : s.size.vars = n := congrArg Prod.fst (hs.fits.x.symm.trans h.x)
  have hequalities : s.size.equalities = a := congrArg Prod.fst (hs.fits.y.symm.trans h.y)
  have hinequalities : s.size.inequalities = b := congrArg Prod.fst (hs.fits.s.symm.trans h.s)
  rw [hs.system, NewtonSystem.ofSize, hvars, hequalities, hinequalities]

theorem Reachable.totalWith (hs : Reachable p o s) (hp : p.Total n)
    (hx : s.iterate.x.shape = (n, 1)) : p.TotalWith n s.size := by
  obtain ⟨_, _, _, hsettled⟩ := hs.settled
  exact ⟨hp, congrArg Prod.fst (hsettled.fits.x.symm.trans hx), hs.measured⟩

omit [ExactScalar K] in
theorem answered_of_totalWith (hp : s.program.TotalWith n s.size) : s.Answered := by
  obtain ⟨total, rfl, x₀, hsize⟩ := hp
  exact fun x err hx => total.not_fault hsize hx

/-! ## Looking at the iterate -/

/-- Evaluations and residuals at corresponding iterates correspond. -/
theorem Assessed.reordered {e e' : Evaluation K} {r r' : Residual K}
    (hpq : Program.Reordered σ ρ s.program t.program) (hp : s.program.TotalWith n s.size)
    (hq : t.program.TotalWith n t.size) (h : Iterate.Reordered σ ρ s.iterate t.iterate)
    (hs : s.Assessed e r) (ht : t.Assessed e' r') :
    Evaluation.Reordered σ ρ e e' ∧ Residual.Reordered σ ρ r r' := by
  have he := Evaluation.reordered_of_compute hpq hp hq h.x hs.evaluation ht.evaluation
  exact ⟨he, he.residual h.s h.y h.z hs.residual ht.residual⟩

/-- **A look at corresponding iterates** gives corresponding records. -/
theorem Consistent.examine_reordered (hpq : Program.Reordered σ ρ s.program t.program)
    (hp : s.program.TotalWith n s.size) (hq : t.program.TotalWith n t.size) (hs : Consistent s)
    (ht : Consistent t) (h : Iterate.Reordered σ ρ s.iterate t.iterate)
    (hoptions : t.options = s.options) (hiterations : t.iterations = s.iterations) :
    Outcomes σ s.examine.1.result t.examine.1.result ∧
      Reordered σ ρ s.examine.2 t.examine.2 := by
  have hrecord : ∀ {r r' : Residual K} (progress : Progress), r'.primal = r.primal →
      r'.dual = r.dual → Record.Reordered σ (s.report r.primal r.dual progress)
        (t.report r'.primal r'.dual progress) := by
    intro r r' progress hprimal hdual
    exact ⟨h.x, hprimal, hdual, rfl, hiterations, h.mu⟩
  by_cases hmax : s.options.maxIterations ≤ s.iterations
  · have hmax' : t.options.maxIterations ≤ t.iterations := by rwa [hoptions, hiterations]
    have hfailed : Record.Reordered σ (s.report Scalar.infinity Scalar.infinity .failed)
        (t.report Scalar.infinity Scalar.infinity .failed) :=
      ⟨h.x, rfl, rfl, rfl, hiterations, h.mu⟩
    rw [examine, examine, if_pos hmax, if_pos hmax']
    exact ⟨.reported hfailed, h, .finished hfailed, hoptions, hiterations⟩
  · have hmax' : ¬t.options.maxIterations ≤ t.iterations := by rwa [hoptions, hiterations]
    obtain ⟨e, r, hassess⟩ := hs.exists_assess_of_answered (answered_of_totalWith hp)
    obtain ⟨e', r', hassess'⟩ := ht.exists_assess_of_answered (answered_of_totalWith hq)
    obtain ⟨_, hr⟩ := (hs.assessed hassess).reordered hpq hp hq h (ht.assessed hassess')
    have hoptimal : r'.isOptimal 0 t.options.globalTolerance =
        r.isOptimal 0 s.options.globalTolerance := by rw [hoptions, hr.isOptimal_eq]
    rw [examine, examine, if_neg hmax, if_neg hmax', hassess, hassess']
    simp only [hoptimal]
    split
    · have hsuccess := hrecord .success hr.primal_eq hr.dual_eq
      exact ⟨.reported hsuccess, h, .finished hsuccess, hoptions, hiterations⟩
    · exact ⟨.reported (hrecord .pending hr.primal_eq hr.dual_eq), h, .stepping .., hoptions,
        hiterations⟩

/-! ## The Newton step -/

/-- **The next model of curvature in another order.** -/
theorem nextCurvature_reordered {it it' : Iterate K} {e e' next next' : Evaluation K}
    {x x' y y' z z' c c' : Matrix K} (hit : Iterate.Reordered σ ρ it it')
    (he : Evaluation.Reordered σ ρ e e') (hnext : Evaluation.Reordered σ ρ next next')
    (hx : Permuted σ x x') (hy : Permuted (ρ .equality) y y')
    (hz : Permuted (ρ .inequality) z z') (hc : nextCurvature it e next x y z = .ok c)
    (hc' : nextCurvature it' e' next' x' y' z' = .ok c') : Matrix.Reordered σ σ c c' := by
  simp only [nextCurvature, bind_eq_ok] at hc hc'
  obtain ⟨d, hd, hc⟩ := hc
  obtain ⟨d', hd', hc'⟩ := hc'
  have hdd : Permuted σ d d' := hx.subtract hit.x hd hd'
  rw [hdd.isNull_eq] at hc'
  split at hc
  · rename_i hnull
    rw [if_pos hnull] at hc'
    rw [← pure_eq_ok.mp hc, ← pure_eq_ok.mp hc']
    exact hit.curvature
  · rename_i hnull
    rw [if_neg hnull] at hc'
    simp only [bind_eq_ok] at hc hc'
    obtain ⟨l, hl, l₀, hl₀, change, hchange, hc⟩ := hc
    obtain ⟨l', hl', l₀', hl₀', change', hchange', hc'⟩ := hc'
    have hchanges : Permuted σ change change' :=
      (hnext.lagrangianGradient hy hz hl hl').subtract (he.lagrangianGradient hy hz hl₀ hl₀')
        hchange hchange'
    exact Matrix.Reordered.update hdd hchanges hit.curvature hc hc'

/-- **The line search finds the same length in both orders.** -/
theorem found_reordered {d d' : Direction K} {alphaMax alphaMax' mu : K}
    {found found' : LineSearch.Outcome K} (hpq : Program.Reordered σ ρ s.program t.program)
    (hp : s.program.TotalWith n s.size) (hq : t.program.TotalWith n t.size)
    (h : Iterate.Reordered σ ρ s.iterate t.iterate) (hoptions : t.options = s.options)
    (hdd : Direction.Reordered σ ρ d d')
    (hmax : toBoundary s.iterate.s d.ds s.options.fractionToBoundary = .ok alphaMax)
    (hmax' : toBoundary t.iterate.s d'.ds t.options.fractionToBoundary = .ok alphaMax')
    (hfound : ((LineSearch.ofOptions s.program s.size s.options).search s.iterate.x s.iterate.s d
      alphaMax mu).result = .ok found)
    (hfound' : ((LineSearch.ofOptions t.program t.size t.options).search t.iterate.x t.iterate.s d'
      alphaMax' mu).result = .ok found') : found' = found := by
  rw [hoptions, h.s.toBoundary_eq hdd.ds, hmax] at hmax'
  obtain rfl := Except.ok.inj hmax'
  rw [hoptions, LineSearch.search_reordered hpq hp hq s.options h.x h.s hdd, hfound] at hfound'
  exact (Except.ok.inj hfound').symm

/-- **Newton steps that are stored lead to corresponding iterates.** -/
theorem advance_reordered {e e' next next' : Evaluation K} {r r' : Residual K} {it it' : Iterate K}
    (hpq : Program.Reordered σ ρ s.program t.program) (hp : s.program.TotalWith n s.size)
    (hq : t.program.TotalWith n t.size) (h : Iterate.Reordered σ ρ s.iterate t.iterate)
    (hoptions : t.options = s.options) (hs : s.Assessed e r) (ht : t.Assessed e' r')
    (hsystem : s.system = ⟨n, m .equality, m .inequality⟩)
    (hsystem' : t.system = ⟨n, m .equality, m .inequality⟩)
    (hadvance : (s.advance e r).result = .ok (it, next))
    (hadvance' : (t.advance e' r').result = .ok (it', next')) :
    Iterate.Reordered σ ρ it it' := by
  obtain ⟨he, hr⟩ := hs.reordered hpq hp hq h ht
  obtain ⟨hmu, d, alphaMax, alphaDual, found, hd, hmax, hdual, hfound, hx, hslack, hy, hz, _, hnext,
    hcurvature⟩ := advance_eq_ok hadvance
  obtain ⟨hmu', d', alphaMax', alphaDual', found', hd', hmax', hdual', hfound', hx', hslack', hy',
    hz', _, hnext', hcurvature'⟩ := advance_eq_ok hadvance'
  have hmus : it'.mu = it.mu := by rw [hmu, hmu', hoptions, hr.update_eq, h.mu]
  rw [hsystem] at hd
  rw [hsystem', hmus] at hd'
  obtain ⟨d₁, d₁', hd₁, hd₁', hdd⟩ | ⟨err, _, herr, _⟩ :=
    NewtonSystem.direction_reordered h he hs.residual ht.residual it.mu
  · obtain rfl := Except.ok.inj (hd.symm.trans hd₁)
    obtain rfl := Except.ok.inj (hd'.symm.trans hd₁')
    rw [hmus] at hfound'
    obtain rfl := found_reordered hpq hp hq h hoptions hdd hmax hmax' hfound hfound'
    rw [hoptions, h.z.toBoundary_eq hdd.dz, hdual] at hdual'
    obtain rfl := Except.ok.inj hdual'
    have hxx : Permuted σ it.x it'.x := h.x.add (hdd.dx.scale _) hx hx'
    have hyy : Permuted (ρ .equality) it.y it'.y := h.y.add (hdd.dy.scale _) hy hy'
    have hzz : Permuted (ρ .inequality) it.z it'.z := h.z.add (hdd.dz.scale _) hz hz'
    have hnexts := Evaluation.reordered_of_compute hpq hp hq hxx hnext hnext'
    exact ⟨hxx, h.s.add (hdd.ds.scale _) hslack hslack', hyy, hzz,
      nextCurvature_reordered h he hnexts hxx hyy hzz hcurvature hcurvature', hmus⟩
  · cases hd.symm.trans herr

/-- **A Newton step fails in both orders or is stored in both**: there is a direction in both or in
neither, and along it the new slacks decide. -/
theorem Reachable.advance_outcomes {e e' : Evaluation K} {r r' : Residual K}
    (hpq : Program.Reordered σ ρ p q) (hp : p.Total n) (hq : q.Total n) (hs : Reachable p o s)
    (ht : Reachable q o t) (h : Reordered σ ρ s t) (hphase : s.phase = .stepping e r)
    (hphase' : t.phase = .stepping e' r') :
    (∃ err err', (s.advance e r).result = .error err ∧ (t.advance e' r').result = .error err') ∨
    ∃ it next it' next', (s.advance e r).result = .ok (it, next) ∧
      (t.advance e' r').result = .ok (it', next') ∧ Iterate.Reordered σ ρ it it' := by
  have hsize := hs.totalWith hp h.iterate.x.left
  have hsize' := ht.totalWith hq h.iterate.x.right
  obtain ⟨hvalid, rfl, rfl, hsettled⟩ := hs.settled
  obtain ⟨_, rfl, hoptions, hsettled'⟩ := ht.settled
  have hassessed := hsettled.stepping e r hphase
  have hassessed' := hsettled'.stepping e' r' hphase'
  have hsystem := hsettled.toConsistent.system_eq h.iterate.fits
  have hsystem' := hsettled'.toConsistent.system_eq h.iterate.symm.fits
  obtain ⟨he, hr⟩ := hassessed.reordered hpq hsize hsize' h.iterate hassessed'
  have hmu : (Barrier.ofOptions t.options).update r' t.iterate.mu =
      (Barrier.ofOptions s.options).update r s.iterate.mu := by
    rw [hoptions, hr.update_eq, h.iterate.mu]
  obtain ⟨d, d', hd, hd', hdd⟩ | ⟨err, err', hd, hd'⟩ := NewtonSystem.direction_reordered h.iterate
    he hassessed.residual hassessed'.residual ((Barrier.ofOptions s.options).update r s.iterate.mu)
  · rw [← hsystem] at hd
    rw [← hsystem', ← hmu] at hd'
    obtain ⟨alphaMax, found, slacks, hmax, _, hfound, hslacks, _, hstored, hrefused⟩ :=
      hsettled.advance_along (hs.interior zero_lt_one) hvalid hs.isPosDef
        (answered_of_totalWith hsize) hphase hd
    obtain ⟨alphaMax', found', slacks', hmax', _, hfound', hslacks', _, hstored', hrefused'⟩ :=
      hsettled'.advance_along (ht.interior zero_lt_one) (hoptions ▸ hvalid) ht.isPosDef
        (answered_of_totalWith hsize') hphase' hd'
    rw [hmu] at hfound'
    obtain rfl := found_reordered hpq hsize hsize' h.iterate hoptions hdd hmax hmax' hfound hfound'
    have hslack : Permuted (ρ .inequality) slacks slacks' :=
      h.iterate.s.add (hdd.ds.scale _) hslacks hslacks'
    by_cases hpos : ∀ v ∈ slacks.data, 0 < v
    · obtain ⟨it, next, hadvance⟩ := hstored hpos
      obtain ⟨it', next', hadvance'⟩ := hstored' (hslack.forall_mem_iff.mpr hpos)
      exact .inr ⟨it, next, it', next', hadvance, hadvance',
        advance_reordered hpq hsize hsize' h.iterate hoptions hassessed hassessed' hsystem hsystem'
          hadvance hadvance'⟩
    · obtain ⟨v, hadvance⟩ := hrefused hpos
      obtain ⟨v', hadvance'⟩ := hrefused' (hslack.forall_mem_iff.not.mpr hpos)
      exact .inl ⟨_, _, hadvance, hadvance'⟩
  · rw [← hsystem] at hd
    rw [← hsystem', ← hmu] at hd'
    refine .inl ⟨err, err', ?_, ?_⟩
    · simp only [advance, Traced.result_bind, except_bind_eq_error, Traced.result_liftM]
      exact .inl hd
    · simp only [advance, Traced.result_bind, except_bind_eq_error, Traced.result_liftM]
      exact .inl hd'

/-! ## Any number of steps -/

/-- **One step in both orders.** -/
theorem Reachable.step_reordered (hpq : Program.Reordered σ ρ p q) (hp : p.Total n)
    (hq : q.Total n) (hs : Reachable p o s) (ht : Reachable q o t) (h : Reordered σ ρ s t) :
    Outcomes σ s.step.1.result t.step.1.result ∧ Reordered σ ρ s.step.2 t.step.2 := by
  have hsize := hs.totalWith hp h.iterate.x.left
  have hsize' := ht.totalWith hq h.iterate.x.right
  have hphases := h.phase
  generalize hphase : s.phase = a at hphases
  generalize hphase' : t.phase = b at hphases
  cases hphases with
  | ready =>
    obtain ⟨_, rfl, _, hsettled⟩ := hs.settled
    obtain ⟨_, rfl, _, hsettled'⟩ := ht.settled
    simp only [Solver.step, hphase, hphase']
    exact hsettled.toConsistent.examine_reordered hpq hsize hsize' hsettled'.toConsistent h.iterate
      h.options h.iterations
  | stepping e e' r r' =>
    obtain ⟨err, err', hadvance, hadvance'⟩ | ⟨it, next, it', next', hadvance, hadvance', hits⟩ :=
      Reachable.advance_outcomes hpq hp hq hs ht h hphase hphase'
    · obtain ⟨hresult, hsame⟩ := step_error hphase hadvance
      obtain ⟨hresult', hsame'⟩ := step_error hphase' hadvance'
      rw [hresult, hresult', hsame, hsame']
      exact ⟨.failed err err', h⟩
    · obtain ⟨_, rfl, _, hsettled⟩ := hs.settled
      obtain ⟨_, rfl, _, hsettled'⟩ := ht.settled
      obtain ⟨hresult, hnext⟩ := step_of_advance hphase hadvance
      obtain ⟨hresult', hnext'⟩ := step_of_advance hphase' hadvance'
      rw [hresult, hresult', hnext, hnext']
      exact (hsettled.toConsistent.commit hadvance).examine_reordered hpq hsize hsize'
        (hsettled'.toConsistent.commit hadvance') hits h.options (congrArg (· + 1) h.iterations)
  | finished hrecord =>
    simp only [Solver.step, hphase, hphase']
    exact ⟨.reported hrecord, h⟩

theorem Reachable.after_reordered (hpq : Program.Reordered σ ρ p q) (hp : p.Total n)
    (hq : q.Total n) (hs : Reachable p o s) (ht : Reachable q o t) (h : Reordered σ ρ s t) (j : ℕ) :
    Reordered σ ρ (s.after j) (t.after j) := by
  induction j generalizing s t with
  | zero => exact h
  | succ j ih =>
    rw [after_succ, after_succ]
    exact ih hs.step ht.step (Reachable.step_reordered hpq hp hq hs ht h).2

/-- The constraints of each kind are as many as are reordered. -/
theorem count_of_reordered {size size' : Size} {x x' : Matrix K}
    (hpq : Program.Reordered σ ρ p q) (hp : p.TotalWith n size) (hq : q.TotalWith n size')
    (hx : Permuted σ x x') (kind : ConstraintKind) :
    size.count kind = m kind ∧ size'.count kind = m kind := by
  obtain ⟨v, hv, hshape⟩ := hp.exists_values hx.left
  obtain ⟨v', hv', hshape'⟩ := hq.exists_values hx.right
  rw [hp.values_eq hx.left] at hv
  rw [hq.values_eq hx.right] at hv'
  have hvv := hpq.values kind x x' v v' hx hv hv'
  exact ⟨congrArg Prod.fst (hshape.symm.trans hvv.left),
    congrArg Prod.fst (hshape'.symm.trans hvv.right)⟩

/-- Runs from corresponding points begin in step. -/
theorem reordered_start {size size' : Size} {x x' : Matrix K} (hpq : Program.Reordered σ ρ p q)
    (hp : p.TotalWith n size) (hq : q.TotalWith n size') (hx : Permuted σ x x') (o : Options K) :
    Reordered σ ρ (start p o size x) (start q o size' x') := by
  obtain ⟨hequalities, hequalities'⟩ := count_of_reordered hpq hp hq hx .equality
  obtain ⟨hinequalities, hinequalities'⟩ := count_of_reordered hpq hp hq hx .inequality
  have hones : Permuted (ρ .inequality) (Matrix.ones size.inequalities : Matrix K)
      (Matrix.ones size'.inequalities) := by
    rw [Size.inequalities, Size.inequalities, hinequalities, hinequalities']
    exact .ones _
  refine ⟨⟨hx, hones, ?_, hones, ?_, rfl⟩, .ready, rfl, rfl⟩
  · change Permuted (ρ .equality) (Matrix.ones size.equalities) (Matrix.ones size'.equalities)
    rw [Size.equalities, Size.equalities, hequalities, hequalities']
    exact .ones _
  · change Matrix.Reordered σ σ (Matrix.identity size.vars) (Matrix.identity size'.vars)
    rw [hp.vars, hq.vars]
    exact Matrix.reordered_identity σ

/-- **The order of variables and constraints does not matter** in exact arithmetic.  Take a program
that answers every question, and one with its variables in the order `σ` and its constraints of each
kind in the order `ρ`.  From corresponding points both solvers are refused, or both are created; and
then the calls of every number `j` of steps and one more both fail, or give records that agree in
everything but the order of the point.  Before and after each of them the iterates correspond:
points by `σ`, multipliers of equalities and of inequalities and slacks by `ρ`, and the model of
curvature by `σ` in rows and columns. -/
theorem run_reordered {x x' : Matrix K} (hpq : Program.Reordered σ ρ p q) (hp : p.Total n)
    (hq : q.Total n) (hx : Permuted σ x x') (o : Options K) :
    (∃ err, create p x o = .error err ∧ create q x' o = .error err) ∨
    ∃ s t, create p x o = .ok s ∧ create q x' o = .ok t ∧ ∀ j,
      Outcomes σ (s.after j).step.1.result (t.after j).step.1.result ∧
      Iterate.Reordered σ ρ (s.after j).iterate (t.after j).iterate := by
  obtain ⟨size, hsize, hvars⟩ := hp.steady.exists_compute hx.left
  obtain ⟨size', hsize', hvars'⟩ := hq.steady.exists_compute hx.right
  rcases hvalid : o.validate with err | _
  · refine .inl ⟨err, ?_, ?_⟩
    · rw [create, hvalid]
      rfl
    · rw [create, hvalid]
      rfl
  · have hcreate : create p x o = .ok (start p o size x) := by
      rw [create, hvalid, hsize]
      rfl
    have hcreate' : create q x' o = .ok (start q o size' x') := by
      rw [create, hvalid, hsize']
      rfl
    refine .inr ⟨_, _, hcreate, hcreate', fun j => ?_⟩
    have hs : Reachable p o (start p o size x) := .create hcreate
    have ht : Reachable q o (start q o size' x') := .create hcreate'
    have h := Reachable.after_reordered hpq hp hq hs ht
      (reordered_start hpq ⟨hp, hvars, x, hsize⟩ ⟨hq, hvars', x', hsize'⟩ hx o) j
    exact ⟨(Reachable.step_reordered hpq hp hq (hs.after j) (ht.after j) h).1, h.iterate⟩

/-! ## Two lines that cross in a quadrant -/

/-- The square of the distance from the corner of a quadrant, on the lines with the equations
`a x + b y = 1` and `c x + d y = 1`. -/
def crossingProgram (a b c d : ℚ) : Program ℚ where
  objective := fun x => x.transpose.multiply x
  gradient := fun x => .ok (x.scale 2)
  constraints :=
    [⟨.equality, fun x => do
        (← (Matrix.ofRows #v[#v[a, b], #v[c, d]]).multiply x).subtract (Matrix.ones 2),
        fun _ => .ok (Matrix.ofRows #v[#v[a, b], #v[c, d]])⟩,
      ⟨.inequality, .ok, fun x => .ok (Matrix.identity x.rows)⟩]
  initialGuess := Matrix.column #[1, 2]

theorem total_crossingProgram (a b c d : ℚ) : (crossingProgram a b c d).Total 2 where
  objective x hx := Matrix.exists_multiply (Matrix.shape_transpose_of_shape hx) hx
  gradient x hx := ⟨_, rfl, hx⟩
  constraint := by
    simp only [crossingProgram, List.forall_mem_cons]
    refine ⟨⟨2, fun x hx => ⟨?_, _, rfl, rfl⟩⟩, ⟨2, fun x hx => ⟨⟨x, rfl, hx⟩, _, rfl, ?_⟩⟩, nofun⟩
    · obtain ⟨u, v, rfl⟩ := Matrix.exists_eq_column_pair hx
      exact ⟨_, rfl, rfl⟩
    · obtain ⟨u, v, rfl⟩ := Matrix.exists_eq_column_pair hx
      rfl

theorem reordered_ofRows (a b c d : ℚ) : Matrix.Reordered (Equiv.swap (0 : Fin 2) 1)
    (Equiv.swap (0 : Fin 2) 1) (Matrix.ofRows #v[#v[a, b], #v[c, d]])
    (Matrix.ofRows #v[#v[d, c], #v[b, a]]) := by
  refine ⟨rfl, rfl, fun i j => ?_⟩
  fin_cases i <;> fin_cases j <;> rfl

theorem values_crossingProgram (a b c d : ℚ) {x : Matrix ℚ} (hx : x.shape = (2, 1)) :
    (crossingProgram a b c d).stackedValues .inequality x = .ok x ∧
      ∃ image v, (Matrix.ofRows #v[#v[a, b], #v[c, d]]).multiply x = .ok image ∧
        image.subtract (Matrix.ones 2) = .ok v ∧
        (crossingProgram a b c d).stackedValues .equality x = .ok v := by
  have hrows : (Matrix.ofRows #v[#v[a, b], #v[c, d]]).shape = (2, 2) := rfl
  obtain ⟨image, himage, hshape⟩ := Matrix.exists_multiply hrows hx
  obtain ⟨v, hv, hshape'⟩ : ∃ v, image.subtract (Matrix.ones 2) = .ok v ∧ _ :=
    Matrix.exists_zipWith? hshape
  refine ⟨Program.stackedValues_singleton rfl rfl (Matrix.shape_eq_iff.mp hx).2, image, v, himage,
    hv, Program.stackedValues_singleton rfl ?_ (Matrix.shape_eq_iff.mp (hshape'.trans hshape)).2⟩
  change (Matrix.multiply _ _ >>= _) = _
  rw [himage]
  exact hv

theorem jacobians_crossingProgram (a b c d : ℚ) {x : Matrix ℚ} (hx : x.shape = (2, 1)) :
    (crossingProgram a b c d).stackedJacobians .inequality x = .ok (Matrix.identity 2) ∧
      (crossingProgram a b c d).stackedJacobians .equality x =
        .ok (Matrix.ofRows #v[#v[a, b], #v[c, d]]) := by
  have hrows : x.rows = 2 := (Matrix.shape_eq_iff.mp hx).1
  refine ⟨Program.stackedJacobians_singleton rfl ?_ hrows.symm,
    Program.stackedJacobians_singleton rfl rfl hrows.symm⟩
  rw [← hrows]

/-- Exchanging the variables, the lines and the inequalities. -/
theorem reordered_crossingProgram (a b c d : ℚ) :
    Program.Reordered (Equiv.swap (0 : Fin 2) 1) (fun _ => Equiv.swap (0 : Fin 2) 1)
      (crossingProgram a b c d) (crossingProgram d c b a) where
  objective x x' w w' hx hw hw' := (hx.transpose.multiply hx hw hw').eq_of_one
  gradient := by
    intro x x' w w' hx hw hw'
    obtain rfl := Except.ok.inj hw
    obtain rfl := Except.ok.inj hw'
    exact hx.scale 2
  values := by
    intro kind x x' w w' hx hw hw'
    obtain ⟨hinequality, image, v, himage, hv, hequality⟩ := values_crossingProgram a b c d hx.left
    obtain ⟨hinequality', image', v', himage', hv', hequality'⟩ :=
      values_crossingProgram d c b a hx.right
    cases kind with
    | equality =>
      obtain rfl := Except.ok.inj (hw.symm.trans hequality)
      obtain rfl := Except.ok.inj (hw'.symm.trans hequality')
      have himages := (reordered_ofRows a b c d).multiply hx himage himage'
      exact himages.subtract (Matrix.Permuted.ones _) hv hv'
    | inequality =>
      obtain rfl := Except.ok.inj (hw.symm.trans hinequality)
      obtain rfl := Except.ok.inj (hw'.symm.trans hinequality')
      exact hx
  jacobians := by
    intro kind x x' w w' hx hw hw'
    obtain ⟨hinequality, hequality⟩ := jacobians_crossingProgram a b c d hx.left
    obtain ⟨hinequality', hequality'⟩ := jacobians_crossingProgram d c b a hx.right
    cases kind with
    | equality =>
      obtain rfl := Except.ok.inj (hw.symm.trans hequality)
      obtain rfl := Except.ok.inj (hw'.symm.trans hequality')
      exact reordered_ofRows a b c d
    | inequality =>
      obtain rfl := Except.ok.inj (hw.symm.trans hinequality)
      obtain rfl := Except.ok.inj (hw'.symm.trans hinequality')
      exact Matrix.reordered_identity _

/-- From corresponding points both solvers take a Newton step, and report on it alike. -/
theorem run_reordered_crossing : ∃ s t,
    create (crossingProgram 1 1 1 3) (Matrix.column #[1, 2]) .default = .ok s ∧
    create (crossingProgram 3 1 1 1) (Matrix.column #[2, 1]) .default = .ok t ∧
    (s.after 2).iterations = 1 ∧ (∃ a b, (s.after 1).step.1.result = .ok a ∧
      (t.after 1).step.1.result = .ok b ∧ Record.Reordered (Equiv.swap (0 : Fin 2) 1) a b) ∧
    Iterate.Reordered (Equiv.swap (0 : Fin 2) 1) (fun _ => Equiv.swap (0 : Fin 2) 1)
      (s.after 2).iterate (t.after 2).iterate := by
  have hx : Permuted (Equiv.swap (0 : Fin 2) 1) (Matrix.column #[1, 2] : Matrix ℚ)
      (Matrix.column #[2, 1]) := by
    refine .of_vec rfl rfl fun i => ?_
    fin_cases i <;> rfl
  have hcreate : create (crossingProgram 1 1 1 3) (Matrix.column #[1, 2]) .default = .ok
      (start (crossingProgram 1 1 1 3) .default ⟨2, [(.equality, 2), (.inequality, 2)]⟩
        (Matrix.column #[1, 2])) := by
    have hsize : Size.compute (crossingProgram 1 1 1 3) (Matrix.column #[1, 2]) =
        .ok ⟨2, [(.equality, 2), (.inequality, 2)]⟩ := rfl
    rw [create, Options.validate_default, ok_bind, hsize, ok_bind]
    rfl
  obtain ⟨err, hrefused, _⟩ | ⟨s, t, hs, ht, h⟩ := run_reordered (reordered_crossingProgram 1 1 1 3)
    (total_crossingProgram ..) (total_crossingProgram ..) hx .default
  · cases hrefused.symm.trans hcreate
  · obtain rfl := Except.ok.inj (hs.symm.trans hcreate)
    exact ⟨_, t, hcreate, ht, by decide +kernel, (h 1).1.exists_reordered (by decide +kernel),
      (h 2).2⟩

end Solver

end InteriorPoint
