import Mathlib
import InteriorPoint.Proofs.Curvature
import InteriorPoint.Proofs.Double
import InteriorPoint.Proofs.Fit

/-!
# Proofs/Finite — finite results have finite operands

An infinity or a NaN among doubles is not made finite again by a sum, a difference or a product
(`Double.isFinite_of_add`, `Double.isFinite_of_mul`); zero times infinity is a NaN.  So a check of a
result is a check of everything it was computed from: of both vectors of an inner product
(`Matrix.isFinite_of_dot`), and of a vector that a matrix with a row was applied to
(`Matrix.isFinite_of_multiply`).

* `Curvature.isFinite_of_update` — the two denominators of an update are finite only if the step and
  the change of gradient are.
-/

namespace InteriorPoint

namespace Double

open Float.Model Float.Model.UnpackedFloat

variable {a b : Float}

/-- Packing makes nothing finite. -/
theorem isFinite_of_pack {f : UnpackedFloat}
    (h : Scalar.isFinite (Float.ofModel (Float.Model.pack f)) = true) : f.isFinite = true := by
  rcases f with (_ | _) | _ | _ | _
  · exact h
  · exact h
  · exact h
  · rfl
  · rfl

theorem isFinite_of_unpacked_add {spec : Format} : ∀ {f g : UnpackedFloat},
    (UnpackedFloat.add spec f g).isFinite = true → f.isFinite = true ∧ g.isFinite = true
  | .zero _, .zero _, _ => ⟨rfl, rfl⟩
  | .zero _, .finite .., _ => ⟨rfl, rfl⟩
  | .finite .., .zero _, _ => ⟨rfl, rfl⟩
  | .finite .., .finite .., _ => ⟨rfl, rfl⟩
  | .infinity s, .infinity t, h => by
    rw [UnpackedFloat.add] at h
    split at h <;> cases h

theorem isFinite_of_unpacked_sub {spec : Format} : ∀ {f g : UnpackedFloat},
    (UnpackedFloat.sub spec f g).isFinite = true → f.isFinite = true ∧ g.isFinite = true
  | .zero _, .zero _, _ => ⟨rfl, rfl⟩
  | .zero _, .finite .., _ => ⟨rfl, rfl⟩
  | .finite .., .zero _, _ => ⟨rfl, rfl⟩
  | .finite .., .finite .., _ => ⟨rfl, rfl⟩
  | .infinity s, .infinity t, h => by
    rw [UnpackedFloat.sub] at h
    split at h <;> cases h

theorem isFinite_of_unpacked_mul {spec : Format} : ∀ {f g : UnpackedFloat},
    (UnpackedFloat.mul spec f g).isFinite = true → f.isFinite = true ∧ g.isFinite = true
  | .zero _, .zero _, _ => ⟨rfl, rfl⟩
  | .zero _, .finite .., _ => ⟨rfl, rfl⟩
  | .finite .., .zero _, _ => ⟨rfl, rfl⟩
  | .finite .., .finite .., _ => ⟨rfl, rfl⟩

theorem isFinite_of_add (h : Scalar.isFinite (a + b) = true) :
    Scalar.isFinite a = true ∧ Scalar.isFinite b = true :=
  isFinite_of_unpacked_add (isFinite_of_pack h)

theorem isFinite_of_sub (h : Scalar.isFinite (a - b) = true) :
    Scalar.isFinite a = true ∧ Scalar.isFinite b = true :=
  isFinite_of_unpacked_sub (isFinite_of_pack h)

theorem isFinite_of_mul (h : Scalar.isFinite (a * b) = true) :
    Scalar.isFinite a = true ∧ Scalar.isFinite b = true :=
  isFinite_of_unpacked_mul (isFinite_of_pack h)

/-- **A finite sum has finite summands.** -/
theorem isFinite_of_foldl_add {β : Type} (f : β → Float) {xs : List β} {acc : Float}
    (h : Scalar.isFinite (xs.foldl (fun acc v => acc + f v) acc) = true) :
    Scalar.isFinite acc = true ∧ ∀ v ∈ xs, Scalar.isFinite (f v) = true :=
  forall_of_foldl_add (P := fun v => Scalar.isFinite v = true) isFinite_of_add f h

/-- What equals zero is finite. -/
theorem isFinite_of_beq_zero (h : (a == 0) = true) : Scalar.isFinite a = true := by
  have h : UnpackedFloat.beq a.toModel.unpack (.zero .positive) = true := h
  change a.toModel.unpack.isFinite = true
  generalize a.toModel.unpack = f at h ⊢
  rcases f with (_ | _) | _ | _ | _
  · exact nomatch h
  · exact nomatch h
  · exact nomatch h
  · rfl
  · rfl

end Double

/-! ## Matrices -/

namespace Matrix

variable {a b c m : Matrix Float}

theorem isFinite_iff_get : m.isFinite = true ↔ ∀ i j, Scalar.isFinite (m.get i j) = true :=
  isFinite_iff.trans forall_mem_iff_get

/-- **A matrix that was joined entry by entry is finite only if both parts are.** -/
theorem isFinite_of_zipWith? {op : Operation} {f : Float → Float → Float}
    (hf : ∀ {u w}, Scalar.isFinite (f u w) = true → Scalar.isFinite u = true ∧
      Scalar.isFinite w = true)
    (h : zipWith? op f a b = .ok c) (hc : c.isFinite = true) :
    a.isFinite = true ∧ b.isFinite = true := by
  rw [isFinite_iff, isFinite_iff]
  exact forall_of_zipWith? hf h (isFinite_iff.mp hc)

theorem isFinite_of_add (h : a.add b = .ok c) (hc : c.isFinite = true) :
    a.isFinite = true ∧ b.isFinite = true := isFinite_of_zipWith? Double.isFinite_of_add h hc

theorem isFinite_of_subtract (h : a.subtract b = .ok c) (hc : c.isFinite = true) :
    a.isFinite = true ∧ b.isFinite = true := isFinite_of_zipWith? Double.isFinite_of_sub h hc

theorem isFinite_of_scale {factor : Float} (h : (m.scale factor).isFinite = true) :
    m.isFinite = true := by
  rw [isFinite_iff_get] at h ⊢
  intro i j
  have hij : Scalar.isFinite (m.get i j * factor) = true :=
    (get_map (· * factor) m i j) ▸ h i j
  exact (Double.isFinite_of_mul hij).1

/-- **A finite inner product is one of finite vectors.** -/
theorem isFinite_of_dot {d : Float} (h : a.dot b = .ok d) (hd : Scalar.isFinite d = true) :
    a.isFinite = true ∧ b.isFinite = true := by
  simp only [dot, bind_eq_ok] at h
  obtain ⟨_, _, h⟩ := h
  split at h
  · rename_i hshape
    rw [← pure_eq_ok.mp h, sum, ← Array.foldl_toList, Array.toList_zipWith,
      ← List.map_uncurry_zip_eq_zipWith, ← Array.toList_zip] at hd
    obtain ⟨_, hall⟩ := Double.isFinite_of_foldl_add id hd
    have hentry (i : Fin a.rows) (j : Fin a.cols) := Double.isFinite_of_mul
      (hall _ (List.mem_map_of_mem (Array.mem_toList_iff.mpr
        (get_mem_zip (congrArg Prod.fst hshape) (congrArg Prod.snd hshape) i j))))
    rw [isFinite_iff, isFinite_iff]
    exact forall_of_entries hshape hentry
  · cases h

/-- **A finite product is that of a finite vector**, if the matrix has a row at all. -/
theorem isFinite_of_multiply (h : a.multiply b = .ok c) (hrows : 0 < a.rows)
    (hc : c.isFinite = true) : b.isFinite = true := by
  rw [multiply] at h
  split at h
  · rename_i hfit
    obtain rfl := Except.ok.inj h
    rw [isFinite_iff_get] at hc ⊢
    intro k j
    have hentry := (congrArg Scalar.isFinite (get_mul a b hfit ⟨0, hrows⟩ j)).symm.trans (hc _ _)
    obtain ⟨_, hall⟩ := Double.isFinite_of_foldl_add _ hentry
    exact (Double.isFinite_of_mul (hall (k.cast hfit.symm) (List.mem_finRange _))).2
  · cases h

end Matrix

/-! ## Curvature -/

/-- A step that is null is finite. -/
theorem Curvature.isFinite_of_isNull {s : Matrix Float} (h : isNull s = true) :
    s.isFinite = true := by
  rw [Matrix.isFinite_iff]
  intro v hv
  exact Double.isFinite_of_beq_zero (Array.all_eq_true_iff_forall_mem.mp h v hv)

/-- **An update that goes through** was given a finite step and a finite change of gradient. -/
theorem Curvature.isFinite_of_update {s y q q' : Matrix Float} {n : ℕ} (hs : s.shape = (n, 1))
    (hy : y.shape = (n, 1)) (hq : q.shape = (n, n)) (h : update s y q = .ok q') :
    s.isFinite = true ∧ y.isFinite = true := by
  obtain ⟨t⟩ := nonempty_parts hs hy hq
  rw [t.update_eq hs hy] at h
  obtain ⟨_, hsqs, _, hsr, _⟩ := by simpa only [bind_eq_ok] using h
  obtain ⟨hs', _⟩ := Matrix.isFinite_of_dot t.sqs_eq (isFinite_of_requirePositive hsqs)
  obtain ⟨_, hr⟩ := Matrix.isFinite_of_dot t.sr_eq (isFinite_of_requirePositive hsr)
  exact ⟨hs', Matrix.isFinite_of_scale (Matrix.isFinite_of_add t.r_eq hr).1⟩

/-- **A finite gradient of the Lagrangian** is one at finite multipliers, if there is a variable. -/
theorem Evaluation.isFinite_of_lagrangianGradient {e : Evaluation Float} {y z l : Matrix Float}
    {n p k : ℕ} (he : e.Fits n p k) (hn : 0 < n) (h : e.lagrangianGradient y z = .ok l)
    (hl : l.isFinite = true) : y.isFinite = true ∧ z.isFinite = true := by
  simp only [lagrangianGradient, bind_eq_ok] at h
  obtain ⟨gy, hgy, l₁, hl₁, hz, hhz, hl₂⟩ := h
  obtain ⟨hl₁', hz'⟩ := Matrix.isFinite_of_subtract hl₂ hl
  obtain ⟨_, hgy'⟩ := Matrix.isFinite_of_subtract hl₁ hl₁'
  refine ⟨Matrix.isFinite_of_multiply hgy ?_ hgy', Matrix.isFinite_of_multiply hhz ?_ hz'⟩
  · exact hn.trans_eq (Matrix.shape_eq_iff.mp he.equalityJacobian).2.symm
  · exact hn.trans_eq (Matrix.shape_eq_iff.mp he.inequalityJacobian).2.symm

end InteriorPoint
