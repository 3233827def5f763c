import Mathlib
import InteriorPoint.Proofs.Fit
import InteriorPoint.Proofs.Solver.Run

/-!
# Proofs/Solver/Consistency — what every reachable solver knows about its iterate

A solver is *consistent* if its iterate and its linear system have the dimensions of the program and
what it remembers of the program is true at the iterate.  A Newton step that goes through makes a
consistent solver of one (`Consistent.commit`), and a look at a consistent solver leaves it
*settled*: a step that is due starts from the true evaluation and residual, and a success was
claimed on them.

* `Reachable.settled` — every reachable solver is settled.
* `Consistent.exists_assess` — after a Newton step was stored, the look at the new iterate succeeds.
-/

namespace InteriorPoint.Solver

variable {α : Type} [Scalar α] {s t : Solver α} {e : Evaluation α} {r : Residual α}

/-- **What the program leaves of the optimality conditions at the iterate.** -/
structure Assessed (s : Solver α) (e : Evaluation α) (r : Residual α) : Prop where
  evaluation : Evaluation.compute s.program s.size s.iterate.x = .ok e
  residual : Residual.compute e s.iterate.s s.iterate.y s.iterate.z = .ok r

/-- **A solver whose parts fit**, and whose memory of the program is true. -/
structure Consistent (s : Solver α) : Prop where
  measures : s.size.Measures s.program
  system : s.system = .ofSize s.size
  fits : s.iterate.Fits s.size.vars s.size.equalities s.size.inequalities
  known : ∀ e, s.known = some e → Evaluation.compute s.program s.size s.iterate.x = .ok e

/-- **A consistent solver between two calls.** -/
structure Settled (s : Solver α) : Prop extends Consistent s where
  ready : s.phase = .ready → s.known = none
  stepping : ∀ e r, s.phase = .stepping e r → s.Assessed e r
  finished : ∀ record terminal, s.phase = .finished record terminal →
    record.progress = .success → ∃ e r, s.Assessed e r ∧
      r.isOptimal 0 s.options.globalTolerance = true ∧ record = s.report r.primal r.dual .success

/-! ## Looking at the iterate -/

/-- Looking at the iterate of a consistent solver gives the true evaluation and residual. -/
theorem Consistent.assessed (hs : Consistent s) (h : s.assess = .ok (e, r)) : s.Assessed e r := by
  rw [assess] at h
  split at h
  · rename_i hknown
    simp only [bind_eq_ok, pure_eq_ok, Prod.mk.injEq] at h
    obtain ⟨e', he', r', hr', rfl, rfl⟩ := h
    cases he'
    exact ⟨hs.known _ hknown, hr'⟩
  · simp only [bind_eq_ok, pure_eq_ok, Prod.mk.injEq] at h
    obtain ⟨e', he', r', hr', rfl, rfl⟩ := h
    exact ⟨he', hr'⟩

/-- **What is remembered can be assessed**: nothing is asked of the program again. -/
theorem Consistent.exists_assess (hs : Consistent s) (hknown : s.known = some e) :
    ∃ r, s.assess = .ok (e, r) := by
  have he := Evaluation.fits_of_compute hs.measures (hs.known e hknown)
  obtain ⟨r, hr⟩ := Residual.exists_compute he hs.fits.s hs.fits.y hs.fits.z
  refine ⟨r, ?_⟩
  simp only [assess, hknown, bind_eq_ok, pure_eq_ok]
  exact ⟨e, rfl, r, hr, rfl⟩

/-- **A look at the iterate settles a consistent solver.** -/
theorem Examines.settled {result : Except (Error α) (Record α)} (hs : Consistent s)
    (h : Examines s result t) : Settled t := by
  obtain ⟨hm, hsys, hf, hk⟩ := hs
  cases h with
  | exhausted hmax =>
    refine ⟨⟨hm, hsys, hf, hk⟩, nofun, nofun, ?_⟩
    intro record terminal hphase hsuccess
    cases hphase
    cases hsuccess
  | broken hmax hassess => exact ⟨⟨hm, hsys, hf, nofun⟩, fun _ => rfl, nofun, nofun⟩
  | @converged e r hmax hassess hopt =>
    refine ⟨⟨hm, hsys, hf, nofun⟩, nofun, nofun, ?_⟩
    intro record terminal hphase _
    cases hphase
    obtain ⟨he, hr⟩ := Consistent.assessed ⟨hm, hsys, hf, hk⟩ hassess
    exact ⟨e, r, ⟨he, hr⟩, hopt, rfl⟩
  | pending hmax hassess hopt =>
    refine ⟨⟨hm, hsys, hf, nofun⟩, nofun, ?_, nofun⟩
    intro e r hphase
    cases hphase
    obtain ⟨he, hr⟩ := Consistent.assessed ⟨hm, hsys, hf, hk⟩ hassess
    exact ⟨he, hr⟩

/-! ## Storing a Newton step -/

/-- The model of curvature keeps its shape along a step. -/
theorem shape_of_nextCurvature_eq_ok {it : Iterate α} {e next : Evaluation α} {x y z c : Matrix α}
    (h : nextCurvature it e next x y z = .ok c) : c.shape = it.curvature.shape := by
  simp only [nextCurvature, bind_eq_ok] at h
  obtain ⟨d, _, h⟩ := h
  split at h
  · rw [← pure_eq_ok.mp h]
  · simp only [bind_eq_ok] at h
    obtain ⟨_, _, _, _, _, _, hupdate⟩ := h
    exact Matrix.shape_of_update_eq_ok hupdate

/-- **A Newton step that goes through leaves the solver consistent**: each part of the iterate is
the old part with something added, and what is remembered was computed at the new point. -/
theorem Consistent.commit {it : Iterate α} {next : Evaluation α} (hs : Consistent s)
    (h : (s.advance e r).result = .ok (it, next)) : Consistent (s.commit it next) := by
  obtain ⟨_, d, _, _, _, _, _, _, _, hx, hslack, hy, hz, _, hnext, hcurvature⟩ := advance_eq_ok h
  refine ⟨hs.measures, hs.system, ?_, ?_⟩
  · exact
      { x := (Matrix.shape_of_zipWith?_eq_ok hx).trans hs.fits.x
        s := (Matrix.shape_of_zipWith?_eq_ok hslack).trans hs.fits.s
        y := (Matrix.shape_of_zipWith?_eq_ok hy).trans hs.fits.y
        z := (Matrix.shape_of_zipWith?_eq_ok hz).trans hs.fits.z
        curvature := (shape_of_nextCurvature_eq_ok hcurvature).trans hs.fits.curvature }
  · intro e hknown
    cases hknown
    exact hnext

/-! ## Every call -/

/-- **A call settles a settled solver.** -/
theorem Steps.settled {result : Except (Error α) (Record α)} (hs : Settled s)
    (h : Steps s result t) : Settled t := by
  cases h with
  | finished hphase => exact hs
  | examined hphase hexamine => exact hexamine.settled hs.toConsistent
  | refused hphase hadvance => exact hs
  | advanced hphase hadvance hexamine => exact hexamine.settled (hs.toConsistent.commit hadvance)

/-- A run begins settled: nothing is remembered yet. -/
theorem settled_start {p : Program α} {o : Options α} {size : Size} {x : Matrix α}
    (h : Size.compute p x = .ok size) : Settled (start p o size x) := by
  obtain ⟨hm, hx⟩ := Size.measures_of_compute h
  exact ⟨⟨hm, rfl, Iterate.fits_initial _ hx, nofun⟩, fun _ => rfl, nofun, nofun⟩

/-- Whether the stream of records has ended makes no difference. -/
theorem Settled.ended (hs : Settled s) (ended : Bool) : Settled { s with ended } := by
  obtain ⟨⟨hm, hsys, hf, hk⟩, hready, hstepping, hfinished⟩ := hs
  refine ⟨⟨hm, hsys, hf, hk⟩, hready, ?_, ?_⟩
  · intro e r hphase
    obtain ⟨he, hr⟩ := hstepping e r hphase
    exact ⟨he, hr⟩
  · intro record terminal hphase hsuccess
    obtain ⟨e, r, ⟨he, hr⟩, hopt, hrecord⟩ := hfinished record terminal hphase hsuccess
    exact ⟨e, r, ⟨he, hr⟩, hopt, hrecord⟩

/-- **Every reachable solver is settled**, with the program and the options it was created with. -/
theorem Reachable.settled {p : Program α} {o : Options α} (h : Reachable p o s) :
    o.validate = .ok () ∧ s.program = p ∧ s.options = o ∧ Settled s :=
  h.holds (fun _ _ _ hsize => settled_start hsize) (fun s hs => s.steps.settled hs)
    (fun _ ended hs => hs.ended ended)

/-- **What every call keeps in a settled solver** holds of every reachable one. -/
theorem Reachable.holds_settled {p : Program α} {o : Options α} {I : Solver α → Prop}
    (hstart : ∀ x size, Size.compute p x = .ok size → I (start p o size x))
    (hstep : ∀ s, Settled s → I s → I s.step.2) (hended : ∀ s ended, I s → I { s with ended })
    (h : Reachable p o s) : I s := by
  obtain ⟨_, _, _, _, hI⟩ := h.holds (I := fun s => Settled s ∧ I s)
    (fun x size _ hsize => ⟨settled_start hsize, hstart x size hsize⟩)
    (fun s hs => ⟨s.steps.settled hs.1, hstep s hs.1 hs.2⟩)
    (fun s ended hs => ⟨hs.1.ended ended, hended s ended hs.2⟩)
  exact hI

end InteriorPoint.Solver
