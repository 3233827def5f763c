import Mathlib
import InteriorPoint.Proofs.Matrix.Members
import InteriorPoint.Proofs.Solver.Run

/-!
# Proofs/Solver/Interior — slacks and multipliers stay positive

The first iterate has ones for slacks and multipliers, and a Newton step whose slacks or multipliers
are not all positive is refused.  So they are positive at every reachable solver
(`Reachable.interior`), whatever the arithmetic does on the way; all that is asked of it is that one
is positive.
-/

namespace InteriorPoint.Solver

variable {α : Type} [Scalar α] {s t : Solver α}

/-- **Slacks and multipliers are positive.** -/
def Interior (it : Iterate α) : Prop := (∀ v ∈ it.s.data, 0 < v) ∧ ∀ v ∈ it.z.data, 0 < v

/-- An iterate is let through exactly if it is interior. -/
theorem requireInterior_eq_ok_iff {it : Iterate α} :
    requireInterior it.s it.z = .ok () ↔ Interior it := by
  have hmem : (∀ v ∈ it.s.data ++ it.z.data, 0 < v) ↔ Interior it := by
    simp only [Array.mem_append, or_imp, forall_and, Interior]
  rw [requireInterior, ← hmem]
  split
  · rename_i hnone
    refine ⟨fun _ v hv => ?_, fun _ => rfl⟩
    simpa using Array.find?_eq_none.mp hnone v hv
  · rename_i value hsome
    refine ⟨nofun, fun h => ?_⟩
    have hvalue := Array.find?_some hsome
    simp [h value (Array.mem_of_find?_eq_some hsome)] at hvalue

/-- A call keeps slacks and multipliers positive. -/
theorem Steps.interior {result : Except (Error α) (Record α)} (hs : Interior s.iterate)
    (h : Steps s result t) : Interior t.iterate := by
  obtain heq | ⟨_, _, _, _, hadvance⟩ := h.iterate_cases
  · rw [heq]
    exact hs
  · obtain ⟨_, _, _, _, _, _, _, _, _, _, _, _, _, hinterior, _⟩ := advance_eq_ok hadvance
    exact requireInterior_eq_ok_iff.mp hinterior

/-- **Slacks and multipliers of a reachable solver are positive**, if one is. -/
theorem Reachable.interior {p : Program α} {o : Options α} (hone : (0 : α) < 1)
    (h : Reachable p o s) : Interior s.iterate := by
  have hones : ∀ n, ∀ v ∈ (Matrix.ones n : Matrix α).data, 0 < v := by
    intro n v hv
    obtain ⟨_, _, rfl⟩ := Matrix.exists_of_mem_ofFn hv
    exact hone
  have hstart : ∀ x size, Interior (start p o size x).iterate := fun x size =>
    ⟨hones size.inequalities, hones size.inequalities⟩
  obtain ⟨_, _, _, hs⟩ := h.holds (I := fun s => Interior s.iterate)
    (fun x size _ _ => hstart x size) (fun s hs => s.steps.interior hs) (fun _ _ hs => hs)
  exact hs

end InteriorPoint.Solver
