import Mathlib
import InteriorPoint.Proofs.Finite
import InteriorPoint.Proofs.Solver.Consistency

/-!
# Proofs/Solver/Finiteness — which parts of an iterate stay finite, in doubles

A Newton step adds multiples of a finite direction to the iterate, and the sums may overflow.  Where
the step goes somewhere, the update of curvature asks for two finite denominators, and through them
for finite variables and multipliers (`isFinite_of_nextCurvature`); where it goes nowhere, the
variables have not changed and the model of curvature is kept.  Nothing asks for finite slacks, for
finite multipliers after a step that goes nowhere, or for a finite update of curvature.

* `step_finiteness` — the variables are finite after every step of every run from a finite point,
  and these three are all that can be missing for a finite iterate.
* `curvature_overflow` — a run from a finite point with an infinite entry in its model of curvature.
-/

namespace InteriorPoint

/-- **A finite iterate.** -/
structure Iterate.AllFinite (it : Iterate Float) : Prop where
  x : it.x.isFinite = true
  s : it.s.isFinite = true
  y : it.y.isFinite = true
  z : it.z.isFinite = true
  curvature : it.curvature.isFinite = true

instance (it : Iterate Float) : Decidable it.AllFinite :=
  decidable_of_iff (it.x.isFinite = true ∧ it.s.isFinite = true ∧ it.y.isFinite = true ∧
      it.z.isFinite = true ∧ it.curvature.isFinite = true)
    ⟨fun ⟨hx, hs, hy, hz, hc⟩ => ⟨hx, hs, hy, hz, hc⟩,
      fun ⟨hx, hs, hy, hz, hc⟩ => ⟨hx, hs, hy, hz, hc⟩⟩

namespace Solver

variable {s t : Solver Float} {e next : Evaluation Float} {r : Residual Float}

/-- **What the next model of curvature says of the step**: the variables are finite; after a step
that goes nowhere the model is the old one, and after any other the multipliers are finite. -/
theorem isFinite_of_nextCurvature {it : Iterate Float} {x y z c : Matrix Float} {n p k : ℕ}
    (hit : it.Fits n p k) (hnext : next.Fits n p k) (hx : x.shape = (n, 1))
    (hy : y.shape = (p, 1)) (hz : z.shape = (k, 1)) (h : nextCurvature it e next x y z = .ok c) :
    x.isFinite = true ∧ ∃ d, x.subtract it.x = .ok d ∧
      if Curvature.isNull d then c = it.curvature else y.isFinite = true ∧ z.isFinite = true := by
  simp only [nextCurvature, bind_eq_ok] at h
  obtain ⟨d, hd, h⟩ := h
  have hds : d.shape = (n, 1) := (Matrix.shape_of_zipWith?_eq_ok hd).trans hx
  split at h
  · rename_i hnull
    refine ⟨(Matrix.isFinite_of_subtract hd (Curvature.isFinite_of_isNull hnull)).1, d, hd, ?_⟩
    rw [if_pos hnull]
    exact (pure_eq_ok.mp h).symm
  · rename_i hnull
    simp only [bind_eq_ok] at h
    obtain ⟨l', hl', l, hl, change, hchange, hupdate⟩ := h
    obtain ⟨l'', hl'', hls⟩ := Evaluation.exists_lagrangianGradient hnext hy hz
    obtain rfl := Except.ok.inj (hl'.symm.trans hl'')
    obtain ⟨hdfinite, hfinite⟩ := Curvature.isFinite_of_update hds
      ((Matrix.shape_of_zipWith?_eq_ok hchange).trans hls) hit.curvature hupdate
    -- a step that goes somewhere has an entry
    have hn : 0 < n := by
      refine Nat.pos_of_ne_zero fun hn => hnull ?_
      have hempty : d.data = #[] := Array.eq_empty_of_size_eq_zero
        ((Matrix.size_data_of_shape hds).trans hn)
      rw [Curvature.isNull, hempty, Array.all_empty]
    refine ⟨(Matrix.isFinite_of_subtract hd hdfinite).1, d, hd, ?_⟩
    rw [if_neg hnull]
    exact Evaluation.isFinite_of_lagrangianGradient hnext hn hl'
      (Matrix.isFinite_of_subtract hchange hfinite).1

/-- **What a Newton step that is stored leaves finite.** -/
theorem Settled.isFinite_of_advance {it : Iterate Float} (hs : Settled s)
    (h : (s.advance e r).result = .ok (it, next)) :
    it.x.isFinite = true ∧ ∃ d, it.x.subtract s.iterate.x = .ok d ∧
      if Curvature.isNull d then it.curvature = s.iterate.curvature
      else it.y.isFinite = true ∧ it.z.isFinite = true := by
  obtain ⟨_, _, hit, _⟩ := hs.toConsistent.commit h
  obtain ⟨_, _, _, _, _, _, _, _, _, _, _, _, _, _, hnext, hcurvature⟩ := advance_eq_ok h
  exact isFinite_of_nextCurvature hs.fits (Evaluation.fits_of_compute hs.measures hnext) hit.x hit.y
    hit.z hcurvature

/-- A call leaves finite variables finite. -/
theorem Steps.isFinite {result : Except (Error Float) (Record Float)} (hs : Settled s)
    (hx : s.iterate.x.isFinite = true) (h : Steps s result t) :
    t.iterate.x.isFinite = true := by
  obtain heq | ⟨_, _, _, _, hadvance⟩ := h.iterate_cases
  · rw [heq]
    exact hx
  · exact (hs.isFinite_of_advance hadvance).1

/-- **A run from a finite point begins with a finite iterate.** -/
theorem allFinite_start (p : Program Float) (o : Options Float) (size : Size) {x : Matrix Float}
    (hx : x.isFinite = true) : (start p o size x).iterate.AllFinite := by
  have hones (n : ℕ) : (Matrix.ones n : Matrix Float).isFinite = true := by
    rw [Matrix.isFinite_iff]
    intro v hv
    obtain ⟨_, _, rfl⟩ := Matrix.exists_of_mem_ofFn hv
    rfl
  have hidentity (n : ℕ) : (Matrix.identity n : Matrix Float).isFinite = true := by
    rw [Matrix.isFinite_iff]
    intro v hv
    obtain ⟨i, j, rfl⟩ := Matrix.exists_of_mem_ofFn hv
    split <;> rfl
  exact ⟨hx, hones size.inequalities, hones size.equalities, hones size.inequalities,
    hidentity size.vars⟩

/-- The variables of a run from a finite point are finite. -/
theorem Runs.isFinite {s₀ : Solver Float} (h₀ : Settled s₀) (hx₀ : s₀.iterate.x.isFinite = true)
    (h : Runs s₀ s) : Settled s ∧ s.iterate.x.isFinite = true :=
  h.keeps (I := fun s => Settled s ∧ s.iterate.x.isFinite = true)
    (fun s hs => ⟨s.steps.settled hs.1, s.steps.isFinite hs.1 hs.2⟩)
    (fun _ ended hs => ⟨hs.1.ended ended, hs.2⟩) ⟨h₀, hx₀⟩

/-- **What stays finite.**  A run from a finite point begins with a finite iterate, and its
variables are finite after every step.  If the iterate is finite before a step, it is finite after
it if and only if the slacks are, and, after a step that goes nowhere, the multipliers, after any
other the model of curvature. -/
theorem step_finiteness {p : Program Float} {o : Options Float} {x₀ : Matrix Float}
    {s₀ : Solver Float} (hx₀ : x₀.isFinite = true) (hcreate : create p x₀ o = .ok s₀)
    (hruns : Runs s₀ s) :
    s₀.iterate.AllFinite ∧ s.step.2.iterate.x.isFinite = true ∧
    ∃ d, s.step.2.iterate.x.subtract s.iterate.x = .ok d ∧
      (s.iterate.AllFinite → (s.step.2.iterate.AllFinite ↔ s.step.2.iterate.s.isFinite = true ∧
        if Curvature.isNull d then
          s.step.2.iterate.y.isFinite = true ∧ s.step.2.iterate.z.isFinite = true
        else s.step.2.iterate.curvature.isFinite = true)) := by
  simp only [create, bind_eq_ok, pure_eq_ok] at hcreate
  obtain ⟨_, _, size, hsize, rfl⟩ := hcreate
  obtain ⟨hs, hx⟩ := hruns.isFinite (settled_start hsize) hx₀
  refine ⟨allFinite_start p o size hx₀, s.steps.isFinite hs hx, ?_⟩
  obtain heq | ⟨_, _, _, _, hadvance⟩ := s.steps.iterate_cases
  · rw [heq]
    have hsubtract : s.iterate.x.subtract s.iterate.x = _ := Matrix.zipWith?_eq_ok rfl
    refine ⟨_, hsubtract, fun hfinite => ⟨fun _ => ⟨hfinite.s, ?_⟩, fun _ => hfinite⟩⟩
    split
    · exact ⟨hfinite.y, hfinite.z⟩
    · exact hfinite.curvature
  · obtain ⟨hx', d, hd, hrest⟩ := hs.isFinite_of_advance hadvance
    refine ⟨d, hd, fun hfinite => ?_⟩
    split at hrest
    · rw [if_pos ‹_›]
      exact ⟨fun h => ⟨h.s, h.y, h.z⟩, fun h => ⟨hx', h.1, h.2.1, h.2.2, hrest ▸ hfinite.curvature⟩⟩
    · rw [if_neg ‹_›]
      exact ⟨fun h => ⟨h.s, h.curvature⟩, fun h => ⟨hx', h.1, hrest.1, hrest.2, h.2⟩⟩

/-! ## Two runs -/

/-- A gradient that turns sharply: along the first variable it is that of a bowl, and the second
entry jumps from zero to `steepness` on the way to the minimum. -/
def turningProgram (steepness : Float) : Program Float where
  objective := fun _ => .ok (Matrix.zeros 1 1)
  gradient := fun x =>
    let v := x.data.getD 0 0
    .ok (Matrix.column #[v, steepness * (1 - v)])
  constraints := []
  initialGuess := Matrix.column #[1, 0]

/-- A run of it at its beginning. -/
def turningStart (steepness : Float) : Solver Float :=
  start (turningProgram steepness) .default ⟨2, []⟩ (turningProgram steepness).initialGuess

theorem create_turning (steepness : Float) :
    create (turningProgram steepness) (turningProgram steepness).initialGuess Options.default =
      .ok (turningStart steepness) := rfl

/-- Where the gradient turns gently, the step leaves a finite iterate. -/
theorem step_finiteness_turning : (turningProgram 1).initialGuess.isFinite = true ∧
    create (turningProgram 1) (turningProgram 1).initialGuess Options.default =
      .ok (turningStart 1) ∧
    Runs (turningStart 1) (turningStart 1).step.2 ∧
    (turningStart 1).step.2.iterate.AllFinite ∧
    (turningStart 1).step.2.step.2.iterate.AllFinite := by
  have hstart : (turningProgram 1).initialGuess.isFinite = true := by decide +kernel
  have hfinite : (turningStart 1).step.2.iterate.AllFinite := by decide +kernel
  have hruns : Runs (turningStart 1) (turningStart 1).step.2 := .step .refl
  obtain ⟨_, _, _, _, hiff⟩ := step_finiteness hstart (create_turning 1) hruns
  refine ⟨hstart, create_turning 1, hruns, hfinite, (hiff hfinite).mpr ⟨by decide +kernel, ?_⟩⟩
  split
  · exact ⟨by decide +kernel, by decide +kernel⟩
  · decide +kernel

/-- **An infinite entry in the model of curvature.**  Where the gradient turns sharply, the square
of its change overflows in the update although both denominators are finite: the step is stored, and
the call gives a record. -/
theorem curvature_overflow : (turningProgram 1e200).initialGuess.isFinite = true ∧
    create (turningProgram 1e200) (turningProgram 1e200).initialGuess Options.default =
      .ok (turningStart 1e200) ∧
    Runs (turningStart 1e200) (turningStart 1e200).step.2 ∧
    (∃ record, (turningStart 1e200).step.2.step.1.result = .ok record) ∧
    (turningStart 1e200).step.2.step.2.iterate.curvature.isFinite = false := by
  refine ⟨by decide +kernel, create_turning 1e200, .step .refl, ?_, by decide +kernel⟩
  have hok : (turningStart 1e200).step.2.step.1.result.isOk = true := by decide +kernel
  cases hresult : (turningStart 1e200).step.2.step.1.result with
  | error err =>
    rw [hresult] at hok
    exact nomatch hok
  | ok record => exact ⟨record, rfl⟩

end Solver

end InteriorPoint
