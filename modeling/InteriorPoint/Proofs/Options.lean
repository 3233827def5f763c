import Mathlib
import InteriorPoint.Options
import InteriorPoint.Proofs.Exact
import InteriorPoint.Proofs.Sequence

/-!
# Proofs/Options — what validated options promise

* `Options.inRange_of_validate` — every scalar setting of validated options is in its range.
* `Options.validate_default` — over exact scalars, so is every default.
* `Options.ext_get`, `Options.get_put` — options are the values of their settings, which are changed
  one by one.
-/

namespace InteriorPoint.Options

variable {α : Type} [Scalar α] {o : Options α} {x : α}

theorem mem_all (setting : Setting) : setting ∈ Setting.all := by
  cases setting <;> decide

/-- **Every scalar setting of validated options is in its range.** -/
theorem inRange_of_validate (h : o.validate = .ok ()) (setting : Setting)
    (hget : o.get setting = .real x) : InRange setting x := by
  have hcheck := eq_ok_of_forM h setting (mem_all setting)
  simp only [check, hget] at hcheck
  split at hcheck
  · assumption
  · exact nomatch hcheck

/-- **The defaults are in range.** -/
theorem validate_default {K : Type} [ExactScalar K] : (default : Options K).validate = .ok () := by
  refine forM_eq_ok fun setting _ => ?_
  cases setting <;> simp only [check, get, default, InRange] <;> norm_num

/-! ## Setting by setting -/

omit [Scalar α] in
/-- **Options are the values of their settings.** -/
theorem ext_get {o' : Options α} (h : ∀ s, o.get s = o'.get s) : o = o' := by
  obtain ⟨⟩ := o
  obtain ⟨⟩ := o'
  rw [mk.injEq]
  exact ⟨Amount.real.inj (h .muInitial), Amount.real.inj (h .barrierToleranceFactor),
    Amount.real.inj (h .linearDecreaseFactor), Amount.real.inj (h .superLinearDecreaseFactor),
    Amount.real.inj (h .globalTolerance), Amount.count.inj (h .maxIterations),
    Amount.real.inj (h .gammaPhi), Amount.real.inj (h .gammaTheta),
    Amount.real.inj (h .fractionToBoundary), Amount.count.inj (h .maxBacktracks)⟩

/-- A value that a setting can have. -/
def Fits : Setting → Amount α → Prop
  | s, .real _ => s.isCount = false
  | s, .count _ => s.isCount = true

omit [Scalar α] in
/-- **One setting is changed**, and the others keep their values. -/
theorem get_put {s : Setting} {a : Amount α} (ha : Fits s a) (s' : Setting) :
    (o.put s a).get s' = if s' = s then a else o.get s' := by
  by_cases hs : s' = s
  · rw [if_pos hs, hs]
    cases s <;> cases a <;> first | rfl | exact nomatch ha
  · rw [if_neg hs]
    cases s <;> cases a <;> cases s' <;> first | rfl | exact absurd rfl hs

end InteriorPoint.Options
