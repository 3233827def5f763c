import Mathlib
import InteriorPoint.Proofs.LineSearch.Backtracking
import InteriorPoint.Proofs.Matrix.Members
import InteriorPoint.Proofs.Matrix.Norms

/-!
# Proofs/LineSearch/Undefined — trials at which a constraint has no value

Over doubles a function is a NaN outside of its domain, and so is the norm of a vector with a NaN
among its entries.  The violation is the larger one of two norms, and a maximum passes over a NaN:
if a value of one kind of constraint is a NaN, the norm of the other kind alone is compared with the
bound.

* `accepted_by_violation` — where a trial passes the test of the violation, each of the two norms is
  within the bound exactly if its vector has no NaN, and one of the two has none.
* `undefined_accepted` — a search that accepts a trial whose only constraint has no value there.
-/

namespace InteriorPoint

/-- **Every entry is a number.** -/
def Matrix.Defined (m : Matrix Float) : Prop := ∀ v ∈ m.data, Scalar.isNaN v = false

instance (m : Matrix Float) : Decidable m.Defined :=
  inferInstanceAs (Decidable (∀ v ∈ m.data, Scalar.isNaN v = false))

theorem Matrix.defined_of_normTwo_le {m : Matrix Float} {bound : Float} (h : m.normTwo ≤ bound) :
    m.Defined := isNaN_normTwo_iff.mp (Double.isNaN_of_le h).1

/-- A difference is defined only where both of its parts are. -/
theorem Matrix.defined_of_subtract {a b c : Matrix Float} (h : a.subtract b = .ok c)
    (hc : c.Defined) : a.Defined ∧ b.Defined :=
  forall_of_zipWith? (P := fun v => Scalar.isNaN v = false) Double.isNaN_of_sub h hc

/-- **If the larger one of two norms is within a bound**, then one of the two vectors is defined, and
each norm is within the bound exactly if its vector is. -/
theorem Matrix.max_normTwo_le {g v : Matrix Float} {bound : Float}
    (h : Scalar.max g.normTwo v.normTwo ≤ bound) :
    (g.Defined ∨ v.Defined) ∧ (g.normTwo ≤ bound ↔ g.Defined) ∧
      (v.normTwo ≤ bound ↔ v.Defined) := by
  rw [Double.max_le_iff, isNaN_normTwo_iff, isNaN_normTwo_iff] at h
  obtain ⟨hsome, hg, hv⟩ := h
  exact ⟨hsome, ⟨defined_of_normTwo_le, hg⟩, ⟨defined_of_normTwo_le, hv⟩⟩

namespace LineSearch

variable {ls : LineSearch Float} {x s : Matrix Float} {d : Direction Float}
  {alphaMax alpha mu : Float}

/-- **Accepted for the violation.**  If a search over doubles accepts a length, then start and trial
have been measured.  If the trial passes the test of the violation, then `g` or `h - s` is defined
there, and each of the two norms is within the bound of the test exactly if its vector is. -/
theorem accepted_by_violation
    (hfound : (ls.search x s d alphaMax mu).result = .ok (.accepted alpha)) :
    ∃ start trial x' s' g h v, ls.measure x s mu = .ok start ∧
      x.add (d.dx.scale alpha) = .ok x' ∧ s.add (d.ds.scale alpha) = .ok s' ∧
      ls.measure x' s' mu = .ok trial ∧ ls.size.values ls.program .equality x' = .ok g ∧
      ls.size.values ls.program .inequality x' = .ok h ∧ h.subtract s' = .ok v ∧
      (trial.theta ≤ (1 - ls.gammaTheta) * start.theta →
        (g.Defined ∨ v.Defined) ∧
        (g.normTwo ≤ (1 - ls.gammaTheta) * start.theta ↔ g.Defined) ∧
        (v.normTwo ≤ (1 - ls.gammaTheta) * start.theta ↔ v.Defined)) ∧
      (v.Defined → h.Defined) := by
  obtain ⟨start, m, hstart, htrial, _⟩ := exists_accepts_of_search hfound
  simp only [trial, bind_eq_ok] at htrial
  obtain ⟨x', hx', s', hs', hmeasure⟩ := htrial
  have hparts := hmeasure
  simp only [measure, violation, bind_eq_ok, pure_eq_ok] at hparts
  obtain ⟨_, ⟨g, hg, h, hh, v, hv, rfl⟩, _, _, rfl⟩ := hparts
  exact ⟨start, _, x', s', g, h, v, hstart, hx', hs', hmeasure, hg, hh, hv, Matrix.max_normTwo_le,
    fun hdefined => (Matrix.defined_of_subtract hv hdefined).1⟩

/-! ## A root that leaves its domain -/

/-- The root of one variable has to be one. -/
def rootProgram : Program Float where
  objective := fun _ => .ok (.zeros 1 1)
  gradient := fun _ => .ok (.zeros 1 1)
  constraints :=
    [⟨.equality, fun x => (x.map Scalar.sqrt).subtract (.ones 1),
      fun x => .ok (x.map fun v => 0.5 / Scalar.sqrt v)⟩]
  initialGuess := .column #[4.0]

/-- A line search on it. -/
def rootSearch : LineSearch Float := .ofOptions rootProgram ⟨1, [(.equality, 1)]⟩ .default

/-- The direction of one variable, without slacks. -/
def leap (dx : Float) : Direction Float :=
  ⟨.column #[dx], .zeros 0 1, .zeros 1 1, .zeros 0 1⟩

/-- Start and trial of a step of length one from `4`, and the value of the constraint there. -/
def rootTrial (dx : Float) :
    Except (Error Float) (Measures Float × Measures Float × Matrix Float) := do
  let start ← rootSearch.measure (.column #[4.0]) (.zeros 0 1) 0.1
  let x ← (Matrix.column #[4.0]).add ((leap dx).dx.scale 1)
  let s ← (Matrix.zeros 0 1).add ((leap dx).ds.scale 1)
  let trial ← rootSearch.measure x s 0.1
  let g ← rootSearch.size.values rootProgram .equality x
  return (start, trial, g)

/-- A step from `4` to `1`, where the constraint holds. -/
theorem accepted_by_violation_root : ∃ start trial g, rootTrial (-3.0) = .ok (start, trial, g) ∧
    trial.theta ≤ (1 - rootSearch.gammaTheta) * start.theta ∧ g.Defined ∧
    g.normTwo ≤ (1 - rootSearch.gammaTheta) * start.theta := by
  have hfound : (rootSearch.search (.column #[4.0]) (.zeros 0 1) (leap (-3.0)) 1 0.1).result =
      .ok (.accepted 1) := eq_accepted_of_test (by decide +kernel)
  obtain ⟨start, trial, x', s', g, h, v, hstart, hx', hs', htrial, hg, _, _, hbounds, _⟩ :=
    accepted_by_violation hfound
  have hrun : rootTrial (-3.0) = .ok (start, trial, g) := by
    simp only [rootTrial, hstart, hx', hs', htrial, ok_bind]
    exact hg ▸ rfl
  obtain ⟨r, hr, htest⟩ : ∃ r, rootTrial (-3.0) = .ok r ∧
      decide (r.2.1.theta ≤ (1 - rootSearch.gammaTheta) * r.1.theta ∧ r.2.2.Defined) = true :=
    exists_of_test (by decide +kernel)
  obtain rfl := Except.ok.inj (hrun.symm.trans hr)
  obtain ⟨hle, hdefined⟩ := of_decide_eq_true htest
  exact ⟨start, trial, g, hrun, hle, hdefined, (hbounds hle).2.1.mpr hdefined⟩

/-- **A trial without a value is accepted**: the step from `4` goes to `-1`. -/
theorem undefined_accepted :
    (Options.default : Options Float).validate = .ok () ∧
    (rootSearch.search (.column #[4.0]) (.zeros 0 1) (leap (-5.0)) 1 0.1).result =
      .ok (.accepted 1) ∧
    ∃ start trial g, rootTrial (-5.0) = .ok (start, trial, g) ∧
      trial.theta ≤ (1 - rootSearch.gammaTheta) * start.theta ∧ ¬g.Defined ∧
      ¬g.normTwo ≤ (1 - rootSearch.gammaTheta) * start.theta := by
  obtain ⟨_, hoptions, _⟩ : ∃ u, (Options.default : Options Float).validate = .ok u ∧ true :=
    exists_of_test (by decide +kernel)
  obtain ⟨⟨start, trial, g⟩, hrun, htest⟩ : ∃ r, rootTrial (-5.0) = .ok r ∧
      decide (r.2.1.theta ≤ (1 - rootSearch.gammaTheta) * r.1.theta ∧ ¬r.2.2.Defined) = true :=
    exists_of_test (by decide +kernel)
  obtain ⟨hle, hundefined⟩ := of_decide_eq_true htest
  exact ⟨hoptions, eq_accepted_of_test (by decide +kernel), start, trial, g, hrun, hle, hundefined,
    fun h => hundefined (Matrix.defined_of_normTwo_le h)⟩

end LineSearch

end InteriorPoint
