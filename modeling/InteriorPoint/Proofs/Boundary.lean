import Mathlib
import InteriorPoint.LineSearch
import InteriorPoint.Proofs.Double
import InteriorPoint.Proofs.Exact
import InteriorPoint.Proofs.Matrix.Entries
import InteriorPoint.Proofs.Matrix.Members

/-!
# Proofs/Boundary — the step to the boundary

From a positive vector a step in a finite direction is limited by quotients whose signs are those of
exact arithmetic.  `SignRules` says what that takes, and doubles keep to it (`SignRules.double`).

* `exists_toBoundary` — under the rules of signs the longest step is found, and is not negative.
* `toBoundary_spec` — over exact scalars it is positive and at most one, and every step up to it
  keeps the vector positive.
* `toBoundary_keeps` — …and at least the part `1 - tau` of every entry.
-/

namespace InteriorPoint

/-- **The rules of signs** that the step to the boundary rests on. -/
structure SignRules (α : Type) [Scalar α] : Prop where
  zero_lt_one : (0 : α) < 1
  one_not_neg : ¬(1 : α) < 0
  quotient {tau v dv : α} : 0 < tau → tau < 1 → 0 < v → Scalar.isFinite dv = true → dv < 0 →
    ¬ -tau * v / dv < 0

/-- Doubles keep to the rules of signs, whatever overflows. -/
theorem SignRules.double : SignRules Float where
  zero_lt_one := by decide
  one_not_neg := by decide
  quotient htau _ hv _ hdv := Double.not_neg_mul_div_neg htau hv hdv

/-! ## Any arithmetic -/

section Rules

variable {α : Type} [Scalar α] {tau alpha : α} {v dv : Matrix α}

/-- One of two scalars is the smaller one. -/
theorem Scalar.min_eq_or (a b : α) : Scalar.min a b = a ∨ Scalar.min a b = b := by
  rw [Scalar.min]
  split_ifs <;> simp

theorem limitStep_not_neg (rules : SignRules α) (htau : 0 < tau ∧ tau < 1) {w dw : α} (hw : 0 < w)
    (hdw : Scalar.isFinite dw = true) (halpha : ¬alpha < 0) : ¬limitStep tau alpha w dw < 0 := by
  rw [limitStep]
  split
  · rename_i hneg
    obtain h | h := Scalar.min_eq_or alpha (-tau * w / dw)
    · rwa [h]
    · rw [h]
      exact rules.quotient htau.1 htau.2 hw hdw hneg
  · exact halpha

/-- **The longest step is found**, whatever the arithmetic, if it keeps to the rules of signs. -/
theorem exists_toBoundary (rules : SignRules α) (htau : 0 < tau ∧ tau < 1)
    (hshape : v.shape = dv.shape) (hv : ∀ w ∈ v.data, 0 < w) (hdv : dv.isFinite = true) :
    ∃ alpha, toBoundary v dv tau = .ok alpha := by
  rw [Matrix.isFinite_iff] at hdv
  rw [toBoundary, if_pos hshape]
  refine ⟨_, if_neg ?_⟩
  rw [← Array.foldl_toList, Array.toList_zip]
  refine List.foldlRecOn (motive := fun alpha : α => ¬alpha < 0) _ _ rules.one_not_neg
    fun alpha halpha w hw => ?_
  obtain ⟨hwv, hwdv⟩ := List.of_mem_zip hw
  exact limitStep_not_neg rules htau (hv w.1 (Array.mem_toList_iff.mp hwv))
    (hdv w.2 (Array.mem_toList_iff.mp hwdv)) halpha

end Rules

/-! ## Exact arithmetic -/

section Exact

variable {K : Type} [ExactScalar K] {tau alpha : K} {v dv : Matrix K}

theorem scalarMin_eq (a b : K) : Scalar.min a b = min a b := by
  have hnan : ¬Scalar.isNaN a = true := Bool.false_ne_true
  rw [Scalar.min, if_neg hnan, min_def]
  split_ifs with h h' h'
  · exact le_antisymm h h'
  · rfl
  · rfl
  · exact absurd (le_of_not_ge h) h'

theorem scalarMax_eq (a b : K) : Scalar.max a b = max a b := by
  have hnan : ¬Scalar.isNaN a = true := Bool.false_ne_true
  rw [Scalar.max, if_neg hnan, max_def]

/-- One falling entry: it is limited to the part `tau` of the way to zero. -/
theorem limitStep_le (tau alpha w dw : K) :
    limitStep tau alpha w dw ≤ alpha ∧ (dw < 0 → limitStep tau alpha w dw ≤ -tau * w / dw) := by
  rw [limitStep, scalarMin_eq]
  split_ifs with hdw
  · exact ⟨min_le_left _ _, fun _ => min_le_right _ _⟩
  · exact ⟨le_rfl, fun h => absurd h hdw⟩

theorem limitStep_pos (htau : 0 < tau) {w dw : K} (hw : 0 < w) (halpha : 0 < alpha) :
    0 < limitStep tau alpha w dw := by
  rw [limitStep, scalarMin_eq]
  split_ifs with hdw
  · exact lt_min halpha (div_pos_of_neg_of_neg (mul_neg_of_neg_of_pos (neg_neg_of_pos htau) hw) hdw)
  · exact halpha

/-- Entries that limit the step one after the other: the result is positive, and no longer than each
of them allows. -/
theorem foldl_limitStep (htau : 0 < tau) : ∀ (xs : List (K × K)) {alpha : K}, 0 < alpha →
    (∀ w ∈ xs, 0 < w.1) →
    0 < xs.foldl (fun alpha (vi, dvi) => limitStep tau alpha vi dvi) alpha ∧
    xs.foldl (fun alpha (vi, dvi) => limitStep tau alpha vi dvi) alpha ≤ alpha ∧
    ∀ w ∈ xs, w.2 < 0 →
      xs.foldl (fun alpha (vi, dvi) => limitStep tau alpha vi dvi) alpha ≤ -tau * w.1 / w.2
  | [], alpha, halpha, _ => ⟨halpha, le_rfl, fun _ hw => absurd hw List.not_mem_nil⟩
  | w :: xs, alpha, halpha, hxs => by
    obtain ⟨hw, hxs⟩ := List.forall_mem_cons.mp hxs
    obtain ⟨hle, hquotient⟩ := limitStep_le tau alpha w.1 w.2
    obtain ⟨hpos, hle', hall⟩ := foldl_limitStep htau xs (limitStep_pos htau hw halpha) hxs
    refine ⟨hpos, hle'.trans hle, List.forall_mem_cons.mpr ⟨fun hneg => ?_, hall⟩⟩
    exact hle'.trans (hquotient hneg)

/-- A step that an entry allows goes at most the part `tau` of the way to zero. -/
theorem part_le_add_mul (htau : 0 < tau) {w dw beta : K} (hw : 0 < w) (hbeta : 0 ≤ beta)
    (h : dw < 0 → beta ≤ -tau * w / dw) : (1 - tau) * w ≤ w + dw * beta := by
  rcases lt_or_ge dw 0 with hdw | hdw
  · have hlimit : -tau * w ≤ beta * dw := (le_div_iff_of_neg hdw).mp (h hdw)
    linarith
  · have hpart : 0 ≤ tau * w := mul_nonneg htau.le hw.le
    have hgain : 0 ≤ dw * beta := mul_nonneg hdw hbeta
    linarith

/-- …and leaves it positive. -/
theorem add_mul_pos (htau : 0 < tau ∧ tau < 1) {w dw beta : K} (hw : 0 < w) (hbeta : 0 ≤ beta)
    (h : dw < 0 → beta ≤ -tau * w / dw) : 0 < w + dw * beta :=
  (mul_pos (sub_pos.mpr htau.2) hw).trans_le (part_le_add_mul htau.1 hw hbeta h)

theorem shape_of_toBoundary (h : toBoundary v dv tau = .ok alpha) : v.shape = dv.shape := by
  rw [toBoundary] at h
  split at h
  · assumption
  · cases h

/-- The step to the boundary is positive, at most one, and no longer than each entry allows. -/
theorem toBoundary_limits (htau : 0 < tau) (hshape : v.shape = dv.shape)
    (hv : ∀ w ∈ v.data, 0 < w) :
    ∃ alpha, toBoundary v dv tau = .ok alpha ∧ 0 < alpha ∧ alpha ≤ 1 ∧
      ∀ w ∈ v.data.zip dv.data, 0 < w.1 ∧ (w.2 < 0 → alpha ≤ -tau * w.1 / w.2) := by
  have hzip : ∀ w ∈ (v.data.zip dv.data).toList, 0 < w.1 := by
    intro w hw
    rw [Array.toList_zip] at hw
    exact hv w.1 (Array.mem_toList_iff.mp (List.of_mem_zip hw).1)
  obtain ⟨hpos, hle, hall⟩ := foldl_limitStep htau _ zero_lt_one hzip
  rw [Array.foldl_toList] at hpos hle hall
  refine ⟨_, ?_, hpos, hle, fun w hw => ?_⟩
  · rw [toBoundary, if_pos hshape]
    exact if_neg hpos.le.not_gt
  · rw [← Array.mem_toList_iff] at hw
    exact ⟨hzip w hw, hall w hw⟩

/-- **The step to the boundary.**  It is positive and at most one, and every step up to it keeps the
vector positive. -/
theorem toBoundary_spec (htau : 0 < tau ∧ tau < 1) (hshape : v.shape = dv.shape)
    (hv : ∀ w ∈ v.data, 0 < w) :
    ∃ alpha, toBoundary v dv tau = .ok alpha ∧ 0 < alpha ∧ alpha ≤ 1 ∧
      ∀ beta, 0 ≤ beta → beta ≤ alpha →
        ∃ v', v.add (dv.scale beta) = .ok v' ∧ ∀ w ∈ v'.data, 0 < w := by
  obtain ⟨alpha, halpha, hpos, hle, hlimits⟩ := toBoundary_limits htau.1 hshape hv
  refine ⟨alpha, halpha, hpos, hle, fun beta hbeta hbound => ?_⟩
  have hscaled : v.shape = (dv.scale beta).shape := hshape
  have hsum : v.add (dv.scale beta) = _ := Matrix.zipWith?_eq_ok hscaled
  refine ⟨_, hsum, fun w hw => ?_⟩
  obtain ⟨⟨u, du⟩, hmem, rfl⟩ := Matrix.exists_of_mem_add_scale hsum hw
  obtain ⟨hu, hlimit⟩ := hlimits _ hmem
  exact add_mul_pos htau hu hbeta fun hneg => hbound.trans (hlimit hneg)

/-- **A step up to the boundary keeps the part `1 - tau`** of every entry. -/
theorem toBoundary_keeps {beta : K} {v' : Matrix K} (htau : 0 < tau) (hv : ∀ w ∈ v.data, 0 < w)
    (h : toBoundary v dv tau = .ok alpha) (hbeta : 0 ≤ beta) (hbound : beta ≤ alpha)
    (hv' : v.add (dv.scale beta) = .ok v') (i : Fin v.rows) (j : Fin v.cols) :
    (1 - tau) * v.coeff i j ≤ v'.coeff i j := by
  have hshape := shape_of_toBoundary h
  obtain ⟨alpha', halpha', _, _, hlimits⟩ := toBoundary_limits htau hshape hv
  obtain rfl := Except.ok.inj (h.symm.trans halpha')
  obtain ⟨hpos, hlimit⟩ :=
    hlimits _ (Matrix.get_mem_zip (congrArg Prod.fst hshape) (congrArg Prod.snd hshape) i j)
  have hdv : dv.coeff i j =
      dv.get (i.cast (congrArg Prod.fst hshape)) (j.cast (congrArg Prod.snd hshape)) :=
    dv.coeff_val (i.cast (congrArg Prod.fst hshape)) (j.cast (congrArg Prod.snd hshape))
  rw [Matrix.coeff_of_add_eq_ok hv', Matrix.coeff_scale, Matrix.coeff_val, hdv]
  exact part_le_add_mul htau hpos hbeta fun hneg => hbound.trans (hlimit hneg)

end Exact

end InteriorPoint
