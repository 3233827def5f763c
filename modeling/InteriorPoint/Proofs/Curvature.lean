import Mathlib
import InteriorPoint.Proofs.Matrix.Entries

/-!
# Proofs/Curvature — the damped update keeps the model positive definite

Where the shapes fit, the update can only fail on one of its two denominators (`update_outcome`).
Over exact scalars neither is in the way: the model is positive definite, so its curvature along a
step that goes somewhere is positive, and damping mixes the change of gradient so that at least a
fifth of that curvature is left (`Parts.fifth_le`).

* `exists_update` — a positive definite model has an update along every step that goes somewhere,
  and the update is positive definite again.
-/

namespace InteriorPoint.Curvature

/-! ## The parts of an update -/

section Shapes

variable {α : Type} [Scalar α] {s y q v : Matrix α} {n : ℕ}

/-- **The parts of an update**, in the order in which they are computed. -/
structure Parts (s y q : Matrix α) where
  /-- The model along the step. -/
  qs : Matrix α
  /-- The curvature of the model along the step. -/
  sqs : α
  /-- The curvature that was met along the step. -/
  sy : α
  /-- What the new model maps the step to. -/
  r : Matrix α
  /-- The curvature of the new model along the step. -/
  sr : α
  down : Matrix α
  lowered : Matrix α
  up : Matrix α
  next : Matrix α
  qs_eq : q.multiply s = .ok qs
  sqs_eq : s.dot qs = .ok sqs
  sy_eq : s.dot y = .ok sy
  r_eq : (y.scale (damping sqs sy)).add (qs.scale (1 - damping sqs sy)) = .ok r
  sr_eq : s.dot r = .ok sr
  down_eq : outer qs sqs = .ok down
  lowered_eq : q.subtract down = .ok lowered
  up_eq : outer r sr = .ok up
  next_eq : lowered.add up = .ok next

theorem exists_dot {a b : Matrix α} (ha : a.shape = (n, 1)) (hb : b.shape = (n, 1)) :
    ∃ d, a.dot b = .ok d := by
  have hcolumn : a.requireColumn .dot = .ok () := if_pos (Matrix.shape_eq_iff.mp ha).2
  refine ⟨Matrix.sum (Array.zipWith (· * ·) a.data b.data), ?_⟩
  rw [Matrix.dot, hcolumn, ok_bind, if_pos (ha.trans hb.symm)]
  rfl

theorem exists_outer (hv : v.shape = (n, 1)) (d : α) :
    ∃ m, outer v d = .ok m ∧ m.shape = (n, n) := by
  obtain ⟨rfl, hcols⟩ := Matrix.shape_eq_iff.mp hv
  exact ⟨_, dif_pos hcols, rfl⟩

/-- Where the shapes fit, every part can be computed. -/
theorem nonempty_parts (hs : s.shape = (n, 1)) (hy : y.shape = (n, 1)) (hq : q.shape = (n, n)) :
    Nonempty (Parts s y q) := by
  obtain ⟨qs, hqs, hqss⟩ := Matrix.exists_multiply hq hs
  obtain ⟨sqs, hsqs⟩ := exists_dot hs hqss
  obtain ⟨sy, hsy⟩ := exists_dot hs hy
  have hmixed : (y.scale (damping sqs sy)).shape = (qs.scale (1 - damping sqs sy)).shape :=
    hy.trans hqss.symm
  obtain ⟨r, hr, hrs⟩ : ∃ r, (y.scale _).add (qs.scale _) = .ok r ∧ _ :=
    Matrix.exists_zipWith? hmixed
  obtain ⟨sr, hsr⟩ := exists_dot hs (hrs.trans hy)
  obtain ⟨down, hdown, hdowns⟩ := exists_outer hqss sqs
  obtain ⟨lowered, hlowered, hlowereds⟩ : ∃ m, q.subtract down = .ok m ∧ _ :=
    Matrix.exists_zipWith? (hq.trans hdowns.symm)
  obtain ⟨up, hup, hups⟩ := exists_outer (hrs.trans hy) sr
  obtain ⟨next, hnext, _⟩ : ∃ m, lowered.add up = .ok m ∧ _ :=
    Matrix.exists_zipWith? ((hlowereds.trans hq).trans hups.symm)
  exact ⟨⟨qs, sqs, sy, r, sr, down, lowered, up, next, hqs, hsqs, hsy, hr, hsr, hdown, hlowered,
    hup, hnext⟩⟩

/-- **The update is its last part**, if both denominators are let through. -/
theorem Parts.update_eq (t : Parts s y q) (hs : s.shape = (n, 1)) (hy : y.shape = (n, 1)) :
    update s y q = do
      requirePositive .curvatureModel t.sqs
      requirePositive .curvatureChange t.sr
      return t.next := by
  have hcolumn : s.requireColumn .curvature = .ok () := if_pos (Matrix.shape_eq_iff.mp hs).2
  rw [update, hcolumn, ok_bind, if_neg (not_not.mpr (hy.trans hs.symm))]
  simp only [t.qs_eq, t.sqs_eq, t.sy_eq, t.r_eq, t.sr_eq, t.down_eq, t.lowered_eq, t.up_eq,
    t.next_eq, ok_bind]
  rfl

theorem eq_breakdown_of_requirePositive {quantity : Quantity} {d : α} {err : Error α}
    (h : requirePositive quantity d = .error err) : err = .breakdown quantity d := by
  rw [requirePositive] at h
  split at h
  · exact nomatch h
  · exact (Except.error.inj h).symm

/-- What is let through is finite. -/
theorem isFinite_of_requirePositive {quantity : Quantity} {d : α} {u : Unit}
    (h : requirePositive quantity d = .ok u) : Scalar.isFinite d = true := by
  rw [requirePositive] at h
  split at h
  · rename_i hd
    exact hd.1
  · exact nomatch h

/-- **An update fails only on a denominator**, whatever the arithmetic. -/
theorem update_outcome (hs : s.shape = (n, 1)) (hy : y.shape = (n, 1)) (hq : q.shape = (n, n)) :
    (∃ q', update s y q = .ok q') ∨
      ∃ quantity d, update s y q = .error (.breakdown quantity d) := by
  obtain ⟨t⟩ := nonempty_parts hs hy hq
  cases h : update s y q with
  | ok q' => exact .inl ⟨q', rfl⟩
  | error err =>
    rw [t.update_eq hs hy] at h
    obtain h | ⟨_, _, h | ⟨_, _, h⟩⟩ := by simpa only [bind_eq_error] using h
    · exact .inr ⟨_, _, congrArg _ (eq_breakdown_of_requirePositive h)⟩
    · exact .inr ⟨_, _, congrArg _ (eq_breakdown_of_requirePositive h)⟩
    · exact nomatch h

end Shapes

/-! ## Exact scalars -/

section Exact

variable {K : Type} [ExactScalar K] {s y q : Matrix K} {n : ℕ}

/-- **A symmetric positive definite matrix** with `n` rows and columns. -/
structure IsPosDef (q : Matrix K) (n : ℕ) : Prop where
  shape : q.shape = (n, n)
  symm : (q.entries n n).IsSymm
  pos : ∀ v : Fin n → K, v ≠ 0 → 0 < v ⬝ᵥ (q.entries n n).mulVec v

/-- The identity is positive definite. -/
theorem isPosDef_identity (n : ℕ) : IsPosDef (Matrix.identity n : Matrix K) n := by
  have hone : (Matrix.identity n : Matrix K).entries n n = 1 := by
    ext i j
    rw [Matrix.entries_apply, Matrix.coeff_identity i.isLt j.isLt, Matrix.one_apply]
    simp only [Fin.ext_iff]
  refine ⟨rfl, by rw [hone]; exact Matrix.isSymm_one, fun v hv => ?_⟩
  rw [hone, Matrix.one_mulVec]
  have hnonneg : 0 ≤ v ⬝ᵥ v := Finset.sum_nonneg fun i _ => mul_self_nonneg (v i)
  exact hnonneg.lt_of_ne fun h => hv (dotProduct_self_eq_zero.mp h.symm)

/-! ### The quadratic form of the model -/

section Form

variable {u v : Fin n → K}

theorem IsPosDef.form_comm (hq : IsPosDef q n) (u v : Fin n → K) :
    u ⬝ᵥ (q.entries n n).mulVec v = v ⬝ᵥ (q.entries n n).mulVec u := by
  rw [Matrix.dotProduct_mulVec, ← Matrix.mulVec_transpose, hq.symm.eq, dotProduct_comm]

/-- What is left of a vector once its part along `u` is taken off, in the sense of the model. -/
theorem IsPosDef.form_sub_smul (hq : IsPosDef q n) (t : K) :
    (v - t • u) ⬝ᵥ (q.entries n n).mulVec (v - t • u) =
      v ⬝ᵥ (q.entries n n).mulVec v - 2 * t * (v ⬝ᵥ (q.entries n n).mulVec u) +
        t ^ 2 * (u ⬝ᵥ (q.entries n n).mulVec u) := by
  simp only [Matrix.mulVec_sub, Matrix.mulVec_smul, sub_dotProduct, dotProduct_sub, smul_dotProduct,
    dotProduct_smul, smul_eq_mul, hq.form_comm u v]
  ring

/-- **The inequality of Cauchy and Schwarz** for the model: it is strict unless the two vectors are
parallel. -/
theorem IsPosDef.parallel_or_lt (hq : IsPosDef q n) (hu : u ≠ 0) (v : Fin n → K) :
    (∃ t : K, v = t • u) ∨ (v ⬝ᵥ (q.entries n n).mulVec u) ^ 2 /
      (u ⬝ᵥ (q.entries n n).mulVec u) < v ⬝ᵥ (q.entries n n).mulVec v := by
  have hc := hq.pos u hu
  set t := (v ⬝ᵥ (q.entries n n).mulVec u) / (u ⬝ᵥ (q.entries n n).mulVec u) with ht
  by_cases hw : v - t • u = 0
  · exact .inl ⟨t, sub_eq_zero.mp hw⟩
  · right
    have hpos := hq.pos _ hw
    rw [hq.form_sub_smul, ht] at hpos
    field_simp at hpos ⊢
    linarith

end Form

/-! ### The update -/

theorem coeff_of_outer_eq_ok {v m : Matrix K} {d : K} (h : outer v d = .ok m) (i j : ℕ) :
    m.coeff i j = v.coeff i 0 * v.coeff j 0 / d := by
  rw [outer] at h
  split at h
  · rename_i hcols
    obtain rfl := Except.ok.inj h
    refine Matrix.coeff_ofFn_of_zero (g := fun i j => v.coeff i 0 * v.coeff j 0 / d) ?_ ?_ i j
    · intro i j
      rw [Matrix.entry_eq_coeff, Matrix.entry_eq_coeff]
    · intro i j hij
      rcases not_and_or.mp hij with hi | hj
      · rw [Matrix.coeff_of_not_lt fun h => hi h.1, zero_mul, zero_div]
      · rw [Matrix.coeff_of_not_lt (i := j) fun h => hj h.1, mul_zero, zero_div]
  · cases h

namespace Parts

variable (t : Parts s y q)

theorem vec_qs (hq : q.shape = (n, n)) : t.qs.vec n = (q.entries n n).mulVec (s.vec n) := by
  ext i
  rw [Matrix.vec_apply, Matrix.coeff_of_multiply_eq_ok hq t.qs_eq]
  rfl

theorem sqs_val (hs : s.shape = (n, 1)) (hq : q.shape = (n, n)) :
    t.sqs = s.vec n ⬝ᵥ (q.entries n n).mulVec (s.vec n) := by
  rw [Matrix.eq_of_dot_eq_ok hs t.sqs_eq, t.vec_qs hq]

/-- What the step is mapped to is a mixture of the change of gradient and of what it was mapped to
before. -/
theorem vec_r (n : ℕ) : t.r.vec n =
    damping t.sqs t.sy • y.vec n + (1 - damping t.sqs t.sy) • t.qs.vec n := by
  ext i
  rw [Matrix.vec_apply, Matrix.coeff_of_add_eq_ok t.r_eq, Matrix.coeff_scale, Matrix.coeff_scale,
    mul_comm, mul_comm (t.qs.coeff _ _)]
  rfl

/-- The mixture of the two curvatures. -/
theorem sr_val (hs : s.shape = (n, 1)) :
    t.sr = damping t.sqs t.sy * t.sy + (1 - damping t.sqs t.sy) * t.sqs := by
  rw [Matrix.eq_of_dot_eq_ok hs t.sr_eq, t.vec_r, dotProduct_add, dotProduct_smul, dotProduct_smul,
    ← Matrix.eq_of_dot_eq_ok hs t.sy_eq, ← Matrix.eq_of_dot_eq_ok hs t.sqs_eq, smul_eq_mul,
    smul_eq_mul]

/-- Where damping sets in, exactly a fifth of the curvature of the model is left. -/
theorem sr_of_lt (hs : s.shape = (n, 1)) (hsqs : 0 < t.sqs) (h : t.sy < 0.2 * t.sqs) :
    t.sr = 0.2 * t.sqs := by
  rw [t.sr_val hs, damping, if_neg h.not_ge]
  have hne : t.sqs - t.sy ≠ 0 := by
    norm_num at h
    linarith
  field_simp
  norm_num
  ring

/-- The curvature of a positive definite model is positive along a step that goes somewhere. -/
theorem sqs_pos (hq : IsPosDef q n) (hs : s.shape = (n, 1)) (hne : s.vec n ≠ 0) : 0 < t.sqs := by
  rw [t.sqs_val hs hq.shape]
  exact hq.pos _ hne

/-- **At least a fifth of the curvature of the model is left.** -/
theorem fifth_le (hs : s.shape = (n, 1)) (hsqs : 0 < t.sqs) : 0.2 * t.sqs ≤ t.sr := by
  rcases le_or_gt (0.2 * t.sqs) t.sy with h | h
  · rw [t.sr_val hs, damping, if_pos h]
    linarith
  · exact (t.sr_of_lt hs hsqs h).ge

theorem sr_pos (hs : s.shape = (n, 1)) (hsqs : 0 < t.sqs) : 0 < t.sr :=
  (mul_pos (by norm_num) hsqs).trans_le (t.fifth_le hs hsqs)

/-- The new model: two products of a vector with itself are taken off and put on. -/
theorem entries_next (n : ℕ) : t.next.entries n n = q.entries n n -
    t.sqs⁻¹ • Matrix.vecMulVec (t.qs.vec n) (t.qs.vec n) +
      t.sr⁻¹ • Matrix.vecMulVec (t.r.vec n) (t.r.vec n) := by
  ext i j
  rw [Matrix.entries_apply, Matrix.coeff_of_add_eq_ok t.next_eq,
    Matrix.coeff_of_subtract_eq_ok t.lowered_eq, coeff_of_outer_eq_ok t.down_eq,
    coeff_of_outer_eq_ok t.up_eq, div_eq_inv_mul, div_eq_inv_mul]
  rfl

/-- **The quadratic form of the new model.** -/
theorem form_next (v : Fin n → K) : v ⬝ᵥ (t.next.entries n n).mulVec v =
    v ⬝ᵥ (q.entries n n).mulVec v - (v ⬝ᵥ t.qs.vec n) ^ 2 / t.sqs +
      (v ⬝ᵥ t.r.vec n) ^ 2 / t.sr := by
  rw [t.entries_next, Matrix.add_mulVec, Matrix.sub_mulVec, dotProduct_add, dotProduct_sub]
  simp only [Matrix.smul_mulVec, Matrix.vecMulVec_mulVec, dotProduct_smul, smul_eq_mul,
    MulOpposite.smul_eq_mul_unop, MulOpposite.unop_op, dotProduct_comm _ v]
  ring

theorem shape_next (hq : q.shape = (n, n)) : t.next.shape = (n, n) :=
  (Matrix.shape_of_zipWith?_eq_ok t.next_eq).trans
    ((Matrix.shape_of_zipWith?_eq_ok t.lowered_eq).trans hq)

/-- **The new model is positive definite**: off the line of the step by the inequality of Cauchy and
Schwarz for the old one, and along it as `sr` is positive. -/
theorem isPosDef_next (hq : IsPosDef q n) (hs : s.shape = (n, 1)) (hne : s.vec n ≠ 0)
    (hsr : 0 < t.sr) : IsPosDef t.next n := by
  refine ⟨t.shape_next hq.shape, ?_, fun v hv => ?_⟩
  · rw [t.entries_next]
    refine (hq.symm.sub ?_).add ?_
    · rw [Matrix.IsSymm, Matrix.transpose_smul, Matrix.transpose_vecMulVec]
    · rw [Matrix.IsSymm, Matrix.transpose_smul, Matrix.transpose_vecMulVec]
  · rw [t.form_next, t.vec_qs hq.shape, t.sqs_val hs hq.shape]
    obtain ⟨c, rfl⟩ | hlt := hq.parallel_or_lt hne v
    · have hc : c ≠ 0 := fun h => hv (by rw [h, zero_smul])
      have hsqs := hq.pos _ hne
      have hline : (c • s.vec n) ⬝ᵥ (q.entries n n).mulVec (c • s.vec n) -
          ((c • s.vec n) ⬝ᵥ (q.entries n n).mulVec (s.vec n)) ^ 2 /
            (s.vec n ⬝ᵥ (q.entries n n).mulVec (s.vec n)) +
          ((c • s.vec n) ⬝ᵥ t.r.vec n) ^ 2 / t.sr = c ^ 2 * t.sr := by
        simp only [Matrix.mulVec_smul, smul_dotProduct, dotProduct_smul, smul_eq_mul,
          ← Matrix.eq_of_dot_eq_ok hs t.sr_eq]
        field_simp
        ring
      rw [hline]
      positivity
    · have hsquare : 0 ≤ (v ⬝ᵥ t.r.vec n) ^ 2 / t.sr := by positivity
      linarith

/-- **Positive denominators are let through.** -/
theorem update_eq_ok (hs : s.shape = (n, 1)) (hy : y.shape = (n, 1)) (hsqs : 0 < t.sqs)
    (hsr : 0 < t.sr) : update s y q = .ok t.next := by
  have hmodel : requirePositive .curvatureModel t.sqs = .ok () := if_pos ⟨rfl, hsqs⟩
  have hchange : requirePositive .curvatureChange t.sr = .ok () := if_pos ⟨rfl, hsr⟩
  rw [t.update_eq hs hy, hmodel, ok_bind, hchange, ok_bind]
  rfl

end Parts

/-- **A positive definite model has an update** along every step that goes somewhere, and the update
is positive definite. -/
theorem exists_update (hq : IsPosDef q n) (hs : s.shape = (n, 1)) (hy : y.shape = (n, 1))
    (hne : s.vec n ≠ 0) : ∃ q', update s y q = .ok q' ∧ IsPosDef q' n := by
  obtain ⟨t⟩ := nonempty_parts hs hy hq.shape
  have hsqs := t.sqs_pos hq hs hne
  have hsr := t.sr_pos hs hsqs
  exact ⟨t.next, t.update_eq_ok hs hy hsqs hsr, t.isPosDef_next hq hs hne hsr⟩

/-- A step is null exactly if it goes nowhere. -/
theorem isNull_iff (hs : s.shape = (n, 1)) : isNull s = true ↔ s.vec n = 0 := by
  rw [isNull, ← Array.all_toList, Matrix.toList_data_of_shape hs, List.all_eq_true, funext_iff]
  simp

end Exact

end InteriorPoint.Curvature
