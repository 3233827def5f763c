import Mathlib
import InteriorPoint.Hooks
import InteriorPoint.Proofs.Sequence

/-!
# Proofs/Solver/Run — what one call does, and what any number of calls reaches

`Examines` and `Steps` list everything that a look at the iterate and a call of the machine can do,
one constructor each, guards included; `advance_eq_ok` does the same for the Newton step.
`Reachable` are the solvers that any sequence of calls makes of a created one.

* `Reachable.holds` — what holds at the start, is kept by a step and does not depend on the end of
  the stream, holds of every reachable solver.
-/

namespace InteriorPoint.Solver

variable {α σ : Type} [Scalar α] {s t : Solver α}

/-! ## One call -/

/-- **What a look at the iterate does**: the result, and the solver after it. -/
inductive Examines (s : Solver α) : Except (Error α) (Record α) → Solver α → Prop where
  /-- No step is left. -/
  | exhausted (hmax : s.options.maxIterations ≤ s.iterations) :
    Examines s (.ok (s.report Scalar.infinity Scalar.infinity .failed))
      { s with
        last := some (s.report Scalar.infinity Scalar.infinity .failed)
        phase := .finished (s.report Scalar.infinity Scalar.infinity .failed) nofun }
  /-- The program cannot be evaluated at the iterate. -/
  | broken {err : Error α} (hmax : s.iterations < s.options.maxIterations)
    (hassess : s.assess = .error err) :
    Examines s (.error err) { s with phase := .ready, known := none }
  /-- The iterate is optimal. -/
  | converged {e : Evaluation α} {r : Residual α} (hmax : s.iterations < s.options.maxIterations)
    (hassess : s.assess = .ok (e, r)) (hopt : r.isOptimal 0 s.options.globalTolerance = true) :
    Examines s (.ok (s.report r.primal r.dual .success))
      { s with
        last := some (s.report r.primal r.dual .success)
        known := none
        phase := .finished (s.report r.primal r.dual .success) nofun }
  /-- The iterate is not optimal, and a step is due. -/
  | pending {e : Evaluation α} {r : Residual α} (hmax : s.iterations < s.options.maxIterations)
    (hassess : s.assess = .ok (e, r)) (hopt : r.isOptimal 0 s.options.globalTolerance = false) :
    Examines s (.ok (s.report r.primal r.dual .pending))
      { s with
        last := some (s.report r.primal r.dual .pending)
        known := none
        phase := .stepping e r }

theorem examines (s : Solver α) : Examines s s.examine.1.result s.examine.2 := by
  unfold examine
  split
  · rename_i hmax
    exact .exhausted hmax
  · rename_i hmax
    have hmax : s.iterations < s.options.maxIterations := Nat.lt_of_not_le hmax
    split
    · rename_i hassess
      exact .broken hmax hassess
    · rename_i hassess
      split
      · rename_i hopt
        exact .converged hmax hassess hopt
      · rename_i hopt
        exact .pending hmax hassess (Bool.not_eq_true _ ▸ hopt)

/-- **What a call of the machine does**: the result, and the solver after it. -/
inductive Steps (s : Solver α) : Except (Error α) (Record α) → Solver α → Prop where
  /-- The terminal record is given again. -/
  | finished {record : Record α} {terminal : record.progress ≠ .pending}
    (hphase : s.phase = .finished record terminal) : Steps s (.ok record) s
  /-- The iterate is examined. -/
  | examined {result : Except (Error α) (Record α)} {t : Solver α} (hphase : s.phase = .ready)
    (hexamine : Examines s result t) : Steps s result t
  /-- A Newton step was due and failed. -/
  | refused {e : Evaluation α} {r : Residual α} {err : Error α}
    (hphase : s.phase = .stepping e r) (hadvance : (s.advance e r).result = .error err) :
    Steps s (.error err) s
  /-- A Newton step was due, was stored, and the new iterate is examined. -/
  | advanced {e next : Evaluation α} {r : Residual α} {it : Iterate α}
    {result : Except (Error α) (Record α)} {t : Solver α} (hphase : s.phase = .stepping e r)
    (hadvance : (s.advance e r).result = .ok (it, next))
    (hexamine : Examines (s.commit it next) result t) : Steps s result t

theorem steps (s : Solver α) : Steps s s.step.1.result s.step.2 := by
  unfold step
  split
  · rename_i record terminal hphase
    exact .finished hphase
  · rename_i hphase
    exact .examined hphase s.examines
  · rename_i e r hphase
    split
    · rename_i events err hadvance
      exact .refused hphase (by rw [hadvance])
    · rename_i events it next hadvance
      exact .advanced hphase (by rw [hadvance]) (s.commit it next).examines

/-- **The parts of a Newton step that goes through**, in the order in which they are computed. -/
theorem advance_eq_ok {e next : Evaluation α} {r : Residual α} {it : Iterate α}
    (h : (s.advance e r).result = .ok (it, next)) :
    it.mu = (Barrier.ofOptions s.options).update r s.iterate.mu ∧
    ∃ d alphaMax alphaDual found,
      s.system.direction s.iterate e r it.mu = .ok d ∧
      toBoundary s.iterate.s d.ds s.options.fractionToBoundary = .ok alphaMax ∧
      toBoundary s.iterate.z d.dz s.options.fractionToBoundary = .ok alphaDual ∧
      ((LineSearch.ofOptions s.program s.size s.options).search s.iterate.x s.iterate.s d alphaMax
        it.mu).result = .ok found ∧
      s.iterate.x.add (d.dx.scale found.length) = .ok it.x ∧
      s.iterate.s.add (d.ds.scale found.length) = .ok it.s ∧
      s.iterate.y.add (d.dy.scale alphaDual) = .ok it.y ∧
      s.iterate.z.add (d.dz.scale alphaDual) = .ok it.z ∧
      requireInterior it.s it.z = .ok () ∧
      Evaluation.compute s.program s.size it.x = .ok next ∧
      nextCurvature s.iterate e next it.x it.y it.z = .ok it.curvature := by
  simp only [advance, Traced.result_bind, except_bind_eq_ok, Traced.result_liftM,
    Traced.result_note, Traced.result_pure, Except.ok.injEq, Prod.mk.injEq] at h
  obtain ⟨d, hd, alphaMax, hmax, alphaDual, hdual, found, hfound, x, hx, slacks, hs, y, hy, z, hz,
    _, hint, _, hnext, curvature, hcurv, _, _, rfl, rfl⟩ := h
  exact ⟨rfl, d, alphaMax, alphaDual, found, hd, hmax, hdual, hfound, hx, hs, hy, hz, hint, hnext,
    hcurv⟩

/-- A look at the iterate does not change it. -/
theorem Examines.iterate_eq {result : Except (Error α) (Record α)} (h : Examines s result t) :
    t.iterate = s.iterate := by
  cases h <;> rfl

/-- **A call leaves the iterate as it is, or stores a Newton step that was due.** -/
theorem Steps.iterate_cases {result : Except (Error α) (Record α)} (h : Steps s result t) :
    t.iterate = s.iterate ∨ ∃ e r next, s.phase = .stepping e r ∧
      (s.advance e r).result = .ok (t.iterate, next) := by
  cases h with
  | finished hphase => exact .inl rfl
  | examined hphase hexamine => exact .inl hexamine.iterate_eq
  | refused hphase hadvance => exact .inl rfl
  | advanced hphase hadvance hexamine =>
    rw [hexamine.iterate_eq]
    exact .inr ⟨_, _, _, hphase, hadvance⟩

/-! ## Any number of calls -/

/-- **The solvers that calls make of a created one**, in any number and order: single steps, items
of the stream, the rest of the stream, runs driven with any hooks, and restarts from any point.  A
restart that fails gives no new solver. -/
inductive Reachable (p : Program α) (o : Options α) : Solver α → Prop where
  | create {x : Matrix α} {s : Solver α} (h : create p x o = .ok s) : Reachable p o s
  | step {s : Solver α} (h : Reachable p o s) : Reachable p o s.step.2
  | next {s : Solver α} (h : Reachable p o s) : Reachable p o s.next.2
  | drain {s : Solver α} (h : Reachable p o s) : Reachable p o s.drain.2
  | solve {σ : Type} {s : Solver α} (hooks : Hooks σ α) (st : σ) (h : Reachable p o s) :
    Reachable p o (s.solve hooks st).solver
  | restart {s t : Solver α} {x : Matrix α} (h : Reachable p o s) (ht : s.restart x = .ok t) :
    Reachable p o t

/-- A driven run goes on from the solver after its first step, or has ended there. -/
theorem solver_drive (hooks : Hooks σ α) (st : σ) (s : Solver α) :
    (s.drive hooks st).solver = s.step.2 ∨
      s.step.2.remaining < s.remaining ∧
        ∃ st', (s.drive hooks st).solver = (s.step.2.drive hooks st').solver := by
  rw [drive]
  split
  rename_i t s' hstep
  split
  · exact .inl (by rw [hstep])
  · rename_i record hrecord
    simp only
    split
    · exact .inl (by rw [hstep])
    · exact .inl (by rw [hstep])
    · rename_i hpending
      split
      · exact .inl (by rw [hstep])
      · rename_i st' _
        have hr : s.step.1.result = .ok record := by rw [hstep]; exact hrecord
        exact .inr ⟨remaining_step_lt hr hpending, st', by rw [hstep]⟩

/-- **What every step keeps, a driven run keeps.** -/
theorem drive_keeps {I : Solver α → Prop} (hstep : ∀ s, I s → I s.step.2) (hooks : Hooks σ α)
    (st : σ) (s : Solver α) (hs : I s) : I (s.drive hooks st).solver := by
  -- by induction on the calls that can still give a pending record
  induction hn : s.remaining using Nat.strongRecOn generalizing s st with
  | _ n ih =>
    obtain h | ⟨hlt, st', h⟩ := solver_drive hooks st s
    · rw [h]
      exact hstep s hs
    · rw [h]
      exact ih _ (hn ▸ hlt) st' s.step.2 (hstep s hs) rfl

/-- **…and so does the rest of the stream.** -/
theorem drain_keeps {I : Solver α → Prop} (hstep : ∀ s, I s → I s.step.2)
    (hended : ∀ s ended, I s → I { s with ended }) (s : Solver α) (hs : I s) : I s.drain.2 := by
  fun_induction drain s with
  | case1 s hend => exact hs
  | case2 s _ t s' hs' record _ _ items s'' hdrain ih =>
    rw [hdrain] at ih
    exact ih (hended _ _ (by simpa [hs'] using hstep s hs))
  | case3 s _ t s' hs' record _ _ => exact hended _ _ (by simpa [hs'] using hstep s hs)
  | case4 s _ t s' hs' err _ => exact hended _ _ (by simpa [hs'] using hstep s hs)

/-- **…and one item of it.** -/
theorem next_keeps {I : Solver α → Prop} (hstep : ∀ s, I s → I s.step.2)
    (hended : ∀ s ended, I s → I { s with ended }) (s : Solver α) (hs : I s) : I s.next.2 := by
  rw [next]
  split
  · exact hs
  · exact hended _ _ (hstep s hs)

/-- **The solvers that calls make of a given one** without beginning a run again. -/
inductive Runs (s₀ : Solver α) : Solver α → Prop where
  | refl : Runs s₀ s₀
  | step {s : Solver α} (h : Runs s₀ s) : Runs s₀ s.step.2
  | next {s : Solver α} (h : Runs s₀ s) : Runs s₀ s.next.2
  | drain {s : Solver α} (h : Runs s₀ s) : Runs s₀ s.drain.2
  | solve {σ : Type} {s : Solver α} (hooks : Hooks σ α) (st : σ) (h : Runs s₀ s) :
    Runs s₀ (s.solve hooks st).solver

/-- **What every step keeps, every sequence of calls keeps.** -/
theorem Runs.keeps {s₀ : Solver α} {I : Solver α → Prop} (hstep : ∀ s, I s → I s.step.2)
    (hended : ∀ s ended, I s → I { s with ended }) (h₀ : I s₀) (h : Runs s₀ s) : I s := by
  induction h with
  | refl => exact h₀
  | step _ ih => exact hstep _ ih
  | next _ ih => exact next_keeps hstep hended _ ih
  | drain _ ih => exact drain_keeps hstep hended _ ih
  | solve hooks st _ ih => exact drive_keeps hstep hooks _ _ ih

/-- A look at the iterate changes neither program nor options. -/
theorem Examines.settings {result : Except (Error α) (Record α)} (h : Examines s result t) :
    t.program = s.program ∧ t.options = s.options := by
  cases h <;> exact ⟨rfl, rfl⟩

/-- Nor does a call. -/
theorem Steps.settings {result : Except (Error α) (Record α)} (h : Steps s result t) :
    t.program = s.program ∧ t.options = s.options := by
  cases h with
  | finished hphase => exact ⟨rfl, rfl⟩
  | examined hphase hexamine => exact hexamine.settings
  | refused hphase hadvance => exact ⟨rfl, rfl⟩
  | advanced hphase hadvance hexamine => exact hexamine.settings

/-- What holds of a solver that has kept the program and the options it was created with: a restart
reads both. -/
def Under (p : Program α) (o : Options α) (I : Solver α → Prop) (s : Solver α) : Prop :=
  s.program = p ∧ s.options = o ∧ I s

theorem Under.step {p : Program α} {o : Options α} {I : Solver α → Prop}
    (hstep : ∀ s, I s → I s.step.2) (s : Solver α) : Under p o I s → Under p o I s.step.2 := by
  rintro ⟨hp, ho, hI⟩
  obtain ⟨hp', ho'⟩ := s.steps.settings
  exact ⟨hp'.trans hp, ho'.trans ho, hstep s hI⟩

omit [Scalar α] in
theorem Under.ended {p : Program α} {o : Options α} {I : Solver α → Prop}
    (hended : ∀ s ended, I s → I { s with ended }) (s : Solver α) (ended : Bool) :
    Under p o I s → Under p o I { s with ended } := by
  rintro ⟨hp, ho, hI⟩
  exact ⟨hp, ho, hended s ended hI⟩

/-- **What holds of every reachable solver**: what holds of the solvers that begin a run, is kept by
a step and does not depend on the end of the stream.  The program and the options are those the
solver was created with. -/
theorem Reachable.holds {p : Program α} {o : Options α} {I : Solver α → Prop}
    (hstart : ∀ x size, o.validate = .ok () → Size.compute p x = .ok size →
      I (start p o size x))
    (hstep : ∀ s, I s → I s.step.2) (hended : ∀ s ended, I s → I { s with ended })
    (h : Reachable p o s) : o.validate = .ok () ∧ s.program = p ∧ s.options = o ∧ I s := by
  change o.validate = .ok () ∧ Under p o I s
  induction h with
  | create h =>
    simp only [Solver.create, bind_eq_ok, pure_eq_ok] at h
    obtain ⟨_, hvalid, size, hsize, rfl⟩ := h
    exact ⟨hvalid, rfl, rfl, hstart _ size hvalid hsize⟩
  | step _ ih => exact ⟨ih.1, Under.step hstep _ ih.2⟩
  | next _ ih => exact ⟨ih.1, next_keeps (Under.step hstep) (Under.ended hended) _ ih.2⟩
  | drain _ ih => exact ⟨ih.1, drain_keeps (Under.step hstep) (Under.ended hended) _ ih.2⟩
  | solve hooks st _ ih => exact ⟨ih.1, drive_keeps (Under.step hstep) hooks _ _ ih.2⟩
  | restart _ ht ih =>
    obtain ⟨hvalid, hp, ho, _⟩ := ih
    simp only [Solver.restart, bind_eq_ok, pure_eq_ok] at ht
    obtain ⟨size, hsize, rfl⟩ := ht
    rw [hp] at hsize
    rw [hp, ho]
    exact ⟨hvalid, rfl, rfl, hstart _ size hvalid hsize⟩

end InteriorPoint.Solver
