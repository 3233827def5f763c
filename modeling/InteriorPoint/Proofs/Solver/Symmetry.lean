import Mathlib
import InteriorPoint.Proofs.Double
import InteriorPoint.Proofs.Solver.Consistency
import InteriorPoint.Proofs.Solver.Finiteness

/-!
# Proofs/Solver/Symmetry — the model of curvature is symmetric to the last bit

An entry of the update is computed from the old entry and from two products, and the entry across
the diagonal from the old entry there and from the same two products with their factors exchanged.
If multiplication is commutative, the two computations are the same one, whatever is rounded or
overflows in them.

* `curvature_symmetric` — the first model is symmetric, every update of a symmetric model is, and so
  is the model of every reachable solver.
-/

namespace InteriorPoint

/-! ## Entries across the diagonal -/

namespace Matrix

variable {α : Type} {a b c : Matrix α}

/-- **Equal entries across the diagonal**; where there is no entry, there is none across. -/
def IsSymmetric (m : Matrix α) : Prop := ∀ i j, m.get? i j = m.get? j i

/-- A square matrix made entry by entry from something symmetric. -/
theorem isSymmetric_ofFn {n : ℕ} {f : Fin n → Fin n → α} (hf : ∀ i j, f i j = f j i) :
    (ofFn n n f).IsSymmetric := by
  intro i j
  rw [get?_ofFn, get?_ofFn]
  by_cases h : i < n ∧ j < n
  · rw [dif_pos h, dif_pos h.symm, hf]
  · rw [dif_neg h, dif_neg fun h' => h h'.symm]

/-- An entry of two matrices that were joined. -/
theorem get?_of_zipWith? {op : Operation} {f : α → α → α} (h : zipWith? op f a b = .ok c)
    (i j : ℕ) : c.get? i j = Option.map₂ f (a.get? i j) (b.get? i j) := by
  obtain ⟨hshape, rfl⟩ := eq_of_zipWith?_eq_ok h
  have hrows : a.rows = b.rows := congrArg Prod.fst hshape
  have hcols : a.cols = b.cols := congrArg Prod.snd hshape
  refine (get?_ofFn ..).trans ?_
  rw [get?, get?]
  by_cases hij : i < a.rows ∧ j < a.cols
  · rw [dif_pos hij, dif_pos hij, dif_pos (hrows ▸ hcols ▸ hij)]
    rfl
  · rw [dif_neg hij, dif_neg hij]
    rfl

/-- **What is joined from symmetric matrices is symmetric.** -/
theorem IsSymmetric.of_zipWith? {op : Operation} {f : α → α → α} (ha : a.IsSymmetric)
    (hb : b.IsSymmetric) (h : zipWith? op f a b = .ok c) : c.IsSymmetric := by
  intro i j
  rw [get?_of_zipWith? h, get?_of_zipWith? h, ha, hb]

theorem isSymmetric_identity [Scalar α] (n : ℕ) : (identity n : Matrix α).IsSymmetric :=
  isSymmetric_ofFn fun _ _ => if_congr eq_comm rfl rfl

end Matrix

/-! ## The update -/

namespace Curvature

variable {α : Type} [Scalar α] {s y q q' v m : Matrix α} {d : α}

/-- Products of pairs of entries do not depend on their order. -/
theorem isSymmetric_outer (hmul : ∀ a b : α, a * b = b * a) (h : outer v d = .ok m) :
    m.IsSymmetric := by
  rw [outer] at h
  split at h
  · obtain rfl := Except.ok.inj h
    exact Matrix.isSymmetric_ofFn fun i j => congrArg (· / d) (hmul _ _)
  · cases h

/-- **The update of a symmetric model is symmetric**, for every step and every change of
gradient. -/
theorem isSymmetric_update (hmul : ∀ a b : α, a * b = b * a) (hq : q.IsSymmetric)
    (h : update s y q = .ok q') : q'.IsSymmetric := by
  simp only [update, bind_eq_ok] at h
  obtain ⟨_, _, h⟩ := h
  split at h
  · obtain ⟨_, hthrow, _⟩ := h
  · simp only [bind_eq_ok] at h
    obtain ⟨qs, _, sqs, _, _, _, sy, _, r, _, sr, _, _, _, down, hdown, lowered, hlowered, up, hup,
      hsum⟩ := h
    have hlower : lowered.IsSymmetric := hq.of_zipWith? (isSymmetric_outer hmul hdown) hlowered
    exact hlower.of_zipWith? (isSymmetric_outer hmul hup) hsum

end Curvature

/-! ## Every run -/

namespace Solver

variable {α : Type} [Scalar α] {s t : Solver α}

/-- The next model is the old one or an update of it. -/
theorem isSymmetric_nextCurvature (hmul : ∀ a b : α, a * b = b * a) {it : Iterate α}
    {e next : Evaluation α} {x y z c : Matrix α} (hit : it.curvature.IsSymmetric)
    (h : nextCurvature it e next x y z = .ok c) : c.IsSymmetric := by
  simp only [nextCurvature, bind_eq_ok] at h
  obtain ⟨d, _, h⟩ := h
  split at h
  · rwa [← pure_eq_ok.mp h]
  · simp only [bind_eq_ok] at h
    obtain ⟨_, _, _, _, _, _, hupdate⟩ := h
    exact Curvature.isSymmetric_update hmul hit hupdate

/-- A call leaves a symmetric model symmetric, whether it stores a step or not. -/
theorem Steps.isSymmetric (hmul : ∀ a b : α, a * b = b * a)
    {result : Except (Error α) (Record α)} (hs : s.iterate.curvature.IsSymmetric)
    (h : Steps s result t) : t.iterate.curvature.IsSymmetric := by
  obtain heq | ⟨_, _, _, _, hadvance⟩ := h.iterate_cases
  · rwa [heq]
  · obtain ⟨_, _, _, _, _, _, _, _, _, _, _, _, _, _, _, hcurvature⟩ := advance_eq_ok hadvance
    exact isSymmetric_nextCurvature hmul hs hcurvature

/-- **The model of curvature is exactly symmetric**, in every arithmetic with a commutative
multiplication.  The first model is symmetric, every update of a symmetric one is, and so the model
of every reachable solver is a square with equal entries across its diagonal. -/
theorem curvature_symmetric (hmul : ∀ a b : α, a * b = b * a) :
    (∀ x size mu, (Iterate.initial x size mu : Iterate α).curvature.IsSymmetric) ∧
    (∀ s y q q' : Matrix α, q.IsSymmetric → Curvature.update s y q = .ok q' → q'.IsSymmetric) ∧
    ∀ (p : Program α) (o : Options α) (s : Solver α), Reachable p o s →
      s.iterate.curvature.shape = (s.size.vars, s.size.vars) ∧
      ∀ i j, s.iterate.curvature.get? i j = s.iterate.curvature.get? j i := by
  refine ⟨fun _ size _ => Matrix.isSymmetric_identity size.vars,
    fun s y q q' hq h => Curvature.isSymmetric_update hmul hq h, fun p o s hs => ?_⟩
  obtain ⟨_, _, _, hsettled⟩ := hs.settled
  refine ⟨hsettled.fits.curvature, hs.holds_settled (I := fun s => s.iterate.curvature.IsSymmetric)
    ?_ ?_ ?_⟩
  · exact fun _ size _ => Matrix.isSymmetric_identity size.vars
  · exact fun s _ hI => s.steps.isSymmetric hmul hI
  · exact fun _ _ hI => hI

/-- In doubles the model stays symmetric although an entry of it overflows. -/
theorem curvature_symmetric_turning :
    (∀ a b : Float, a * b = b * a) ∧
    Reachable (turningProgram 1e200) Options.default (turningStart 1e200).step.2.step.2 ∧
    (turningStart 1e200).step.2.step.2.iterate.curvature.get? 0 1 = some (-1e200) ∧
    (turningStart 1e200).step.2.step.2.iterate.curvature.get? 1 0 = some (-1e200) := by
  have hreach : Reachable (turningProgram 1e200) Options.default
      (turningStart 1e200).step.2.step.2 := .step (.step (.create (create_turning 1e200)))
  have hentry : (turningStart 1e200).step.2.step.2.iterate.curvature.get? 0 1 = some (-1e200) := by
    decide +kernel
  obtain ⟨_, _, hsymmetric⟩ := curvature_symmetric Double.mul_comm
  exact ⟨Double.mul_comm, hreach, hentry, ((hsymmetric _ _ _ hreach).2 1 0).trans hentry⟩

end Solver

end InteriorPoint
