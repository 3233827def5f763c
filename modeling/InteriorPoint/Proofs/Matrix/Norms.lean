import Mathlib
import InteriorPoint.Matrix.Norms
import InteriorPoint.Proofs.Double
import InteriorPoint.Proofs.Dual

/-!
# Proofs/Matrix/Norms — norms over exact scalars and over doubles

Where square roots are square roots, a two-norm is not negative and a matrix that is scaled has its
two-norm scaled (`normTwo_scale`).  Over doubles a norm is a number exactly if every entry is
(`isNaN_normTwo_iff`, `isNaN_normInf_iff`), whatever overflows on the way.
-/

namespace InteriorPoint

/-! ## Exact scalars -/

/-- **Scalars with square roots**: what is not negative has one that is not, and `sqrt` finds it. -/
def SquareRoots (K : Type) [ExactScalar K] : Prop :=
  ∀ a : K, 0 ≤ a → 0 ≤ Scalar.sqrt a ∧ Scalar.sqrt a * Scalar.sqrt a = a

/-- The reals have square roots. -/
theorem squareRoots_real : SquareRoots ℝ := fun a ha => ⟨Real.sqrt_nonneg a, Real.mul_self_sqrt ha⟩

namespace Matrix

section Exact

variable {K : Type} [ExactScalar K]

/-- The sum under the root of a norm. -/
theorem foldl_squares_eq (m : Matrix K) :
    m.data.foldl (fun acc v => acc + v * v) 0 = (m.data.toList.map fun v => v * v).sum := by
  rw [← Array.foldl_toList, ExactScalar.foldl_add_eq, zero_add]

theorem sum_squares_nonneg (m : Matrix K) : 0 ≤ (m.data.toList.map fun v => v * v).sum := by
  refine List.sum_nonneg fun w hw => ?_
  obtain ⟨v, _, rfl⟩ := List.mem_map.mp hw
  exact mul_self_nonneg v

theorem normTwo_nonneg (hroots : SquareRoots K) (m : Matrix K) : 0 ≤ m.normTwo := by
  rw [normTwo, foldl_squares_eq]
  exact (hroots _ m.sum_squares_nonneg).1

/-- **The two-norm of a multiple.** -/
theorem normTwo_scale (hroots : SquareRoots K) (m : Matrix K) {factor : K} (h : 0 ≤ factor) :
    (m.scale factor).normTwo = factor * m.normTwo := by
  have hsum : ((m.scale factor).data.toList.map fun v => v * v).sum =
      factor * factor * (m.data.toList.map fun v => v * v).sum := by
    rw [← List.sum_map_mul_left]
    simp only [scale, map, Array.toList_map, List.map_map]
    refine congrArg List.sum (List.map_congr_left fun v _ => ?_)
    simp only [Function.comp_apply]
    ring
  obtain ⟨hnonneg, hsquare⟩ := hroots _ (m.scale factor).sum_squares_nonneg
  obtain ⟨hnonneg', hsquare'⟩ := hroots _ m.sum_squares_nonneg
  rw [normTwo, normTwo, foldl_squares_eq, foldl_squares_eq]
  -- both sides are not negative and have the same square
  refine (mul_self_inj hnonneg (mul_nonneg h hnonneg')).mp ?_
  rw [hsquare, hsum, mul_mul_mul_comm, hsquare']

end Exact

/-! ## Doubles -/

/-- **The two-norm is a number exactly if every entry is.** -/
theorem isNaN_normTwo_iff {m : Matrix Float} :
    Scalar.isNaN m.normTwo = false ↔ ∀ v ∈ m.data, Scalar.isNaN v = false := by
  rw [normTwo, ← Array.foldl_toList]
  refine ⟨fun h v hv => ?_, fun h => Double.isNaN_sqrt_foldl id m.data.toList fun v hv =>
    h v (Array.mem_toList_iff.mp hv)⟩
  obtain ⟨_, hsquares⟩ := Double.forall_of_foldl_add (P := fun v => Scalar.isNaN v = false)
    Double.isNaN_of_add (fun v : Float => v * v) (Double.isNaN_of_sqrt h)
  exact (Double.isNaN_of_mul (hsquares v (Array.mem_toList_iff.mpr hv))).1

end Matrix

/-- The largest absolute value of doubles is a number if all of them are. -/
theorem isNaN_foldl_absMax (xs : List Float) (acc : Float) :
    Scalar.isNaN (xs.foldl (fun acc v =>
      if Scalar.isNaN acc then acc else if Scalar.isNaN v then v
      else Scalar.max acc (Scalar.abs v)) acc) = false ↔
    Scalar.isNaN acc = false ∧ ∀ v ∈ xs, Scalar.isNaN v = false := by
  induction xs generalizing acc with
  | nil => simp
  | cons v xs ih =>
    rw [List.foldl_cons, ih, List.forall_mem_cons, ← and_assoc]
    refine and_congr_left fun _ => ?_
    split
    · rename_i hacc
      simp [hacc]
    · rename_i hacc
      split
      · rename_i hv
        simp [hv]
      · rename_i hv
        rw [Bool.not_eq_true] at hacc hv
        simp [hacc, hv, Double.isNaN_max_of_left hacc]

theorem Matrix.isNaN_normInf_iff {m : Matrix Float} :
    Scalar.isNaN m.normInf = false ↔ ∀ v ∈ m.data, Scalar.isNaN v = false := by
  rw [normInf, ← Array.foldl_toList, isNaN_foldl_absMax]
  exact ⟨fun h v hv => h.2 v (Array.mem_toList_iff.mpr hv),
    fun h => ⟨rfl, fun v hv => h v (Array.mem_toList_iff.mp hv)⟩⟩

end InteriorPoint
