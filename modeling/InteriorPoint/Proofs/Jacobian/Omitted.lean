import Mathlib
import InteriorPoint.Proofs.Finite
import InteriorPoint.Proofs.Jacobian

/-!
# Proofs/Jacobian/Omitted — the column of an input that an expression does not read, in doubles

In the pass for such an input everything that the expression reads is at rest, so the pass is the
evaluation at the resting point (`Omits.eval_seeded`).  There sums, differences and functions of one
number keep a tangent at zero, but a product multiplies it with the other factor and a quotient with
the reciprocal of the divisor, and zero times an infinity or a NaN is a NaN, which stays to the end.

* `omitted_tangents` — the entry in the column is zero exactly if all factors, dividends, divisors
  and reciprocals of divisors are finite at the point, and a NaN otherwise.
* `reciprocal_leaks` — the reciprocal of an input that is zero has a NaN in the column of the other
  input, where the power `-1` of it has a zero.
-/

namespace InteriorPoint

/-! ## Zeros among doubles -/

namespace Double

open Float.Model Float.Model.UnpackedFloat

variable {a b : Float}

theorem beq_zero_iff : (a == 0) = true ↔ ∃ s, a.toModel.unpack = .zero s := by
  change UnpackedFloat.beq a.toModel.unpack (.zero .positive) = true ↔ _
  generalize a.toModel.unpack = f
  rcases f with (_ | _) | _ | s | ⟨_ | _, _, _, _⟩
  · exact ⟨nofun, nofun⟩
  · exact ⟨nofun, nofun⟩
  · exact ⟨nofun, nofun⟩
  · exact ⟨fun _ => ⟨s, rfl⟩, fun _ => rfl⟩
  · exact ⟨nofun, nofun⟩
  · exact ⟨nofun, nofun⟩

theorem beq_zero_of_pack {f : UnpackedFloat} (h : ∃ s, f = .zero s) :
    (Float.ofModel (Float.Model.pack f) == 0) = true := by
  obtain ⟨s, rfl⟩ := h
  rcases s <;> rfl

theorem beq_zero_add (ha : (a == 0) = true) (hb : (b == 0) = true) : (a + b == 0) = true := by
  obtain ⟨s, hs⟩ := beq_zero_iff.mp ha
  obtain ⟨t, ht⟩ := beq_zero_iff.mp hb
  refine beq_zero_of_pack (f := UnpackedFloat.add Format.binary64 _ _) ?_
  rw [hs, ht, UnpackedFloat.add]
  split <;> exact ⟨_, rfl⟩

theorem beq_zero_sub (ha : (a == 0) = true) (hb : (b == 0) = true) : (a - b == 0) = true := by
  obtain ⟨s, hs⟩ := beq_zero_iff.mp ha
  obtain ⟨t, ht⟩ := beq_zero_iff.mp hb
  refine beq_zero_of_pack (f := UnpackedFloat.sub Format.binary64 _ _) ?_
  rw [hs, ht, UnpackedFloat.sub]
  split <;> exact ⟨_, rfl⟩

theorem beq_zero_neg (ha : (a == 0) = true) : (-a == 0) = true := by
  obtain ⟨s, hs⟩ := beq_zero_iff.mp ha
  refine beq_zero_of_pack (f := UnpackedFloat.neg _) ?_
  rw [hs]
  exact ⟨_, rfl⟩

/-- **A finite number times zero is zero**… -/
theorem beq_zero_mul (ha : Scalar.isFinite a = true) (hb : (b == 0) = true) :
    (a * b == 0) = true := by
  obtain ⟨t, ht⟩ := beq_zero_iff.mp hb
  refine beq_zero_of_pack (f := UnpackedFloat.mul Format.binary64 _ _) ?_
  have ha : a.toModel.unpack.isFinite = true := ha
  rw [ht]
  generalize a.toModel.unpack = f at ha
  rcases f with _ | _ | s | _
  · exact nomatch ha
  · exact nomatch ha
  · exact ⟨_, rfl⟩
  · exact ⟨_, rfl⟩

/-- …and anything else times zero is a NaN. -/
theorem isNaN_mul_zero (ha : Scalar.isFinite a = false) (hb : (b == 0) = true) :
    Scalar.isNaN (a * b) = true := by
  obtain ⟨t, ht⟩ := beq_zero_iff.mp hb
  have ha : a.toModel.unpack.isFinite = false := ha
  have hproduct : UnpackedFloat.mul Format.binary64 a.toModel.unpack b.toModel.unpack =
      .notANumber := by
    rw [ht]
    generalize a.toModel.unpack = f at ha
    rcases f with _ | _ | s | _
    · rfl
    · rfl
    · exact nomatch ha
    · exact nomatch ha
  rw [isNaN_eq, sign_mul_eq, hproduct]
  rfl

theorem isNaN_of_neg (h : Scalar.isNaN (-a) = false) : Scalar.isNaN a = false := by
  rw [isNaN_eq, sign_neg_eq] at h
  rw [isNaN_eq]
  simpa using h

theorem not_beq_zero_of_isNaN (h : Scalar.isNaN a = true) : (a == 0) ≠ true := by
  intro hzero
  exact nomatch (isNaN_of_isFinite (isFinite_of_beq_zero hzero)).symm.trans h

end Double

/-! ## Tangents at rest -/

/-- **A tangent that is at rest under a condition**: zero if the condition holds, and a NaN if it
does not. -/
def RestsIf (condition : Prop) (t : Float) : Prop :=
  (condition ∧ (t == 0) = true) ∨ (¬condition ∧ Scalar.isNaN t = true)

namespace RestsIf

variable {p q : Prop} {s t u : Float}

theorem of_iff (h : RestsIf p t) (hpq : p ↔ q) : RestsIf q t := propext hpq ▸ h

theorem true_and (h : RestsIf p t) : RestsIf (True ∧ p) t :=
  h.of_iff ⟨fun hp => ⟨trivial, hp⟩, And.right⟩

theorem zero : RestsIf True 0 := .inl ⟨trivial, rfl⟩

/-- What is zero with its operands, and a number only with them. -/
theorem join (hs : RestsIf p s) (ht : RestsIf q t)
    (hzero : (s == 0) = true → (t == 0) = true → (u == 0) = true)
    (hnumber : Scalar.isNaN u = false → Scalar.isNaN s = false ∧ Scalar.isNaN t = false) :
    RestsIf (p ∧ q) u := by
  have hnan : Scalar.isNaN s = true ∨ Scalar.isNaN t = true → Scalar.isNaN u = true := by
    intro h
    by_contra hu
    obtain ⟨hs', ht'⟩ := hnumber (Bool.eq_false_iff.mpr hu)
    simp [hs', ht'] at h
  obtain ⟨hp, hs⟩ | ⟨hp, hs⟩ := hs
  · obtain ⟨hq, ht⟩ | ⟨hq, ht⟩ := ht
    · exact .inl ⟨⟨hp, hq⟩, hzero hs ht⟩
    · exact .inr ⟨fun h => hq h.2, hnan (.inr ht)⟩
  · exact .inr ⟨fun h => hp h.1, hnan (.inl hs)⟩

theorem add (hs : RestsIf p s) (ht : RestsIf q t) : RestsIf (p ∧ q) (s + t) :=
  hs.join ht Double.beq_zero_add Double.isNaN_of_add

theorem sub (hs : RestsIf p s) (ht : RestsIf q t) : RestsIf (p ∧ q) (s - t) :=
  hs.join ht Double.beq_zero_sub Double.isNaN_of_sub

theorem neg (ht : RestsIf p t) : RestsIf p (-t) := by
  refine (ht.join ht (fun h _ => Double.beq_zero_neg h) fun h => ?_).of_iff and_self_iff
  exact ⟨Double.isNaN_of_neg h, Double.isNaN_of_neg h⟩

/-- **A multiple of a tangent** rests only if the factor is finite. -/
theorem mul_left (ht : RestsIf p t) (v : Float) :
    RestsIf (Scalar.isFinite v = true ∧ p) (v * t) := by
  obtain ⟨hp, hzero⟩ | ⟨hp, hnan⟩ := ht
  · by_cases hv : Scalar.isFinite v = true
    · exact .inl ⟨⟨hv, hp⟩, Double.beq_zero_mul hv hzero⟩
    · exact .inr ⟨fun h => hv h.1, Double.isNaN_mul_zero (Bool.eq_false_iff.mpr hv) hzero⟩
  · refine .inr ⟨fun h => hp h.2, ?_⟩
    by_contra hproduct
    exact nomatch hnan.symm.trans (Double.isNaN_of_mul (Bool.eq_false_iff.mpr hproduct)).2

theorem mul_right (ht : RestsIf p t) (v : Float) :
    RestsIf (Scalar.isFinite v = true ∧ p) (t * v) := by
  rw [Double.mul_comm]
  exact ht.mul_left v

/-- **A function of one number keeps a tangent at rest**, whatever its derivative. -/
theorem chain {d : Dual Float} (hd : RestsIf p d.eps) (value derivative : Float) :
    RestsIf p (d.chain value derivative).eps := by
  change RestsIf p (if d.eps == 0 then 0 else d.eps * derivative)
  obtain ⟨hp, hzero⟩ | ⟨hp, hnan⟩ := hd
  · rw [if_pos hzero]
    exact .inl ⟨hp, rfl⟩
  · rw [if_neg (Double.not_beq_zero_of_isNaN hnan)]
    refine .inr ⟨hp, ?_⟩
    by_contra hproduct
    exact nomatch hnan.symm.trans (Double.isNaN_of_mul (Bool.eq_false_iff.mpr hproduct)).1

variable {a b : Dual Float}

/-- **The product rule** multiplies the tangents with the factors. -/
theorem dual_mul (ha : RestsIf p a.eps) (hb : RestsIf q b.eps) :
    RestsIf ((Scalar.isFinite a.re = true ∧ Scalar.isFinite b.re = true) ∧ p ∧ q) (a * b).eps :=
  ((hb.mul_left a.re).add (ha.mul_right b.re)).of_iff (by tauto)

/-- **The quotient rule** multiplies them with the reciprocal of the divisor, too. -/
theorem dual_div (ha : RestsIf p a.eps) (hb : RestsIf q b.eps) :
    RestsIf ((Scalar.isFinite a.re = true ∧ Scalar.isFinite b.re = true ∧
      Scalar.isFinite (1 / b.re) = true) ∧ p ∧ q) (a / b).eps := by
  have hnumerator := (ha.mul_right b.re).sub (hb.mul_left a.re)
  exact ((hnumerator.mul_right (1 / b.re)).mul_right (1 / b.re)).of_iff (by tauto)

end RestsIf

/-! ## Expressions at a resting point -/

namespace Formula

/-- **Input `j` does not occur.** -/
def Omits {α : Type} (j : ℕ) : Formula α → Prop := Everywhere fun
  | input i => i ≠ j
  | _ => True

/-- The value at a point passes a test. -/
def HasValue (x : Array Float) (test : Float → Bool) (f : Formula Float) : Prop :=
  (f.eval (DualMap.resting x)).toOption.any (fun d => test d.re) = true

instance (x : Array Float) (test : Float → Bool) (f : Formula Float) :
    Decidable (f.HasValue x test) := inferInstanceAs (Decidable (_ = true))

/-- **Bounded products and quotients**: at the point, all factors, dividends, divisors and
reciprocals of divisors are finite. -/
def Bounded (x : Array Float) : Formula Float → Prop := Everywhere fun
  | mul a b => a.HasValue x Scalar.isFinite ∧ b.HasValue x Scalar.isFinite
  | div a b => a.HasValue x Scalar.isFinite ∧ b.HasValue x Scalar.isFinite ∧
      b.HasValue x fun v => Scalar.isFinite (1 / v)
  | _ => True

/-- **The pass for an input that does not occur** is the evaluation at the resting point. -/
theorem Omits.eval_seeded {α : Type} [Scalar α] {f : Formula α} {j : ℕ} (h : f.Omits j)
    (x : Array α) : f.eval (DualMap.seeded x j) = f.eval (DualMap.resting x) := by
  induction f with
  | dual d => rfl
  | input i =>
    have hi : i ≠ j := h
    simp [eval, readInput, DualMap.seeded, DualMap.resting, hi]
  | add a b iha ihb => rw [eval, eval, iha h.2.1, ihb h.2.2]
  | sub a b iha ihb => rw [eval, eval, iha h.2.1, ihb h.2.2]
  | mul a b iha ihb => rw [eval, eval, iha h.2.1, ihb h.2.2]
  | div a b iha ihb => rw [eval, eval, iha h.2.1, ihb h.2.2]
  | neg a iha => rw [eval, eval, iha h.2]
  | exp a iha => rw [eval, eval, iha h.2]
  | ln a iha => rw [eval, eval, iha h.2]
  | sqrt a iha => rw [eval, eval, iha h.2]
  | powInt a k iha => rw [eval, eval, iha h.2]
  | pow a c iha => rw [eval, eval, iha h.2]

variable {x : Array Float} {f : Formula Float}

theorem hasValue_iff {test : Float → Bool} {d : Dual Float}
    (h : f.eval (DualMap.resting x) = .ok d) : f.HasValue x test ↔ test d.re = true := by
  rw [HasValue, h]
  rfl

/-- **The tangent of an expression at a resting point.** -/
theorem exists_eval_resting (hplain : f.IsPlain x.size) (hleast : f.AvoidsLeast) :
    ∃ d, f.eval (DualMap.resting x) = .ok d ∧ RestsIf (f.Bounded x) d.eps := by
  induction f with
  | dual d =>
    have hd : d.eps = 0 := hplain
    exact ⟨d, rfl, hd ▸ .zero⟩
  | input i =>
    have hi : i < x.size := hplain
    refine ⟨Dual.constant x[i], ?_, .zero⟩
    rw [eval, readInput, dif_pos (by simpa [DualMap.resting] using hi)]
    simp [DualMap.resting]
  | add a b iha ihb =>
    obtain ⟨v, hv, hrv⟩ := iha hplain.2.1 hleast.2.1
    obtain ⟨w, hw, hrw⟩ := ihb hplain.2.2 hleast.2.2
    exact ⟨v + w, by rw [eval, hv, hw]; rfl, (hrv.add hrw).true_and⟩
  | sub a b iha ihb =>
    obtain ⟨v, hv, hrv⟩ := iha hplain.2.1 hleast.2.1
    obtain ⟨w, hw, hrw⟩ := ihb hplain.2.2 hleast.2.2
    exact ⟨v - w, by rw [eval, hv, hw]; rfl, (hrv.sub hrw).true_and⟩
  | mul a b iha ihb =>
    obtain ⟨v, hv, hrv⟩ := iha hplain.2.1 hleast.2.1
    obtain ⟨w, hw, hrw⟩ := ihb hplain.2.2 hleast.2.2
    refine ⟨v * w, by rw [eval, hv, hw]; rfl, (hrv.dual_mul hrw).of_iff ?_⟩
    exact and_congr_left' (and_congr (hasValue_iff hv).symm (hasValue_iff hw).symm)
  | div a b iha ihb =>
    obtain ⟨v, hv, hrv⟩ := iha hplain.2.1 hleast.2.1
    obtain ⟨w, hw, hrw⟩ := ihb hplain.2.2 hleast.2.2
    have hreciprocal : b.HasValue x (fun u => Scalar.isFinite (1 / u)) ↔
        Scalar.isFinite (1 / w.re) = true := hasValue_iff hw
    refine ⟨v / w, by rw [eval, hv, hw]; rfl, (hrv.dual_div hrw).of_iff ?_⟩
    exact and_congr_left' (and_congr (hasValue_iff hv).symm
      (and_congr (hasValue_iff hw).symm hreciprocal.symm))
  | neg a iha =>
    obtain ⟨v, hv, hrv⟩ := iha hplain.2 hleast.2
    exact ⟨-v, by rw [eval, hv]; rfl, hrv.neg.true_and⟩
  | exp a iha =>
    obtain ⟨v, hv, hrv⟩ := iha hplain.2 hleast.2
    exact ⟨v.exp, by rw [eval, hv]; rfl, (hrv.chain _ _).true_and⟩
  | ln a iha =>
    obtain ⟨v, hv, hrv⟩ := iha hplain.2 hleast.2
    exact ⟨v.ln, by rw [eval, hv]; rfl, (hrv.chain _ _).true_and⟩
  | sqrt a iha =>
    obtain ⟨v, hv, hrv⟩ := iha hplain.2 hleast.2
    exact ⟨v.sqrt, by rw [eval, hv]; rfl, (hrv.chain _ _).true_and⟩
  | pow a c iha =>
    obtain ⟨v, hv, hrv⟩ := iha hplain.2 hleast.2
    exact ⟨v.pow c, by rw [eval, hv]; rfl, (hrv.chain _ _).true_and⟩
  | powInt a k iha =>
    obtain ⟨v, hv, hrv⟩ := iha hplain.2 hleast.2
    have hk : k ≠ Int32.minValue := hleast.1
    refine ⟨_, by rw [eval, hv, ok_bind, Dual.powInt, if_neg hk], ?_⟩
    exact (hrv.chain _ _).true_and

end Formula

/-! ## The column of an input that does not occur -/

/-- A map that has no value on any inputs has no Jacobian. -/
theorem DualMap.jacobian_eq_error {α : Type} [Scalar α] {f : DualMap α} {x : Matrix α} {n : ℕ}
    {err : Error α} (hx : x.shape = (n, 1)) (h : ∀ v, v.size = n → f v = .error err) :
    f.jacobian x = .error err := by
  obtain ⟨hrows, hcols⟩ := Matrix.shape_eq_iff.mp hx
  have hcolumn : x.requireColumn .jacobian = .ok () := if_pos hcols
  have hsize : x.data.size = n := Matrix.size_data_of_shape hx
  rw [jacobian, hcolumn, ok_bind, hrows]
  rcases n with _ | n
  · rw [List.range_zero, h #[] rfl]
    rfl
  · have hseeded : (seeded x.data 0).size = n + 1 := by rw [seeded, Array.size_mapIdx, hsize]
    rw [List.range_succ_eq_map]
    simp only [tangents, h _ hseeded, error_bind]

namespace Formula

variable {fs : List (Formula Float)} {x : Matrix Float} {n : ℕ}

/-- **An expression without a value leaves all results without one.** -/
theorem map_outputs_eq_error (shape : Shape) {v : Array (Dual Float)}
    (hplain : ∀ f ∈ fs, f.IsPlain v.size) (hleast : ∃ f ∈ fs, ¬f.AvoidsLeast) :
    (VectorFormula.outputs shape fs).map v = .error (.missingExponent Int32.minValue) := by
  have hfails : fs.mapM (eval v) = .error (.missingExponent Int32.minValue) := by
    rcases hresult : fs.mapM (eval v) with err | ds
    · obtain ⟨f, hf, herr⟩ := exists_of_mapM_eq_error hresult
      obtain ⟨_, d, hd⟩ | ⟨_, herror⟩ := eval_outcome (hplain f hf)
      · exact nomatch herr.symm.trans hd
      · exact congrArg Except.error (Except.error.inj (herr.symm.trans herror))
    · obtain ⟨f, hf, hf'⟩ := hleast
      obtain ⟨havoids, _⟩ | ⟨_, herror⟩ := eval_outcome (hplain f hf)
      · exact absurd havoids hf'
      · have hnone := failure?_eq_none.mpr ⟨ds, hresult⟩
        rw [failure?_mapM, List.findSome?_eq_none_iff] at hnone
        exact nomatch herror ▸ hnone f hf
  rw [VectorFormula.map, VectorFormula.eval, hfails]
  rfl

/-- The result of an expression, and zero if it has none. -/
def result (v : Array (Dual Float)) (f : Formula Float) : Dual Float :=
  (f.eval v).toOption.getD (Dual.constant 0)

theorem eval_eq_result {f : Formula Float} {v : Array (Dual Float)} (hplain : f.IsPlain v.size)
    (hleast : f.AvoidsLeast) : f.eval v = .ok (f.result v) := by
  obtain ⟨_, d, hd⟩ | ⟨hnot, _⟩ := eval_outcome hplain
  · rw [result, hd]
    rfl
  · exact absurd hleast hnot

/-- **The Jacobian of expressions that have a value**: in the column of an input that one of them
does not read stands the tangent of that expression at the resting point. -/
theorem exists_jacobian (shape : Shape) (hx : x.shape = (n, 1)) (hplain : ∀ f ∈ fs, f.IsPlain n)
    (hleast : ∀ f ∈ fs, f.AvoidsLeast) :
    ∃ entry : Fin fs.length → Fin n → Float,
      (VectorFormula.outputs shape fs).map.jacobian x = .ok (.ofFn fs.length n entry) ∧
      ∀ i (j : Fin n), (fs.get i).Omits j → RestsIf ((fs.get i).Bounded x.data) (entry i j) := by
  have hsize : x.data.size = n := Matrix.size_data_of_shape hx
  have hpass : ∀ j : Fin n, ∀ f ∈ fs, f.eval (DualMap.seeded x.data j) =
      .ok (f.result (DualMap.seeded x.data j)) := by
    intro j f hf
    refine eval_eq_result ?_ (hleast f hf)
    rw [DualMap.seeded, Array.size_mapIdx, hsize]
    exact hplain f hf
  refine ⟨_, VectorFormula.jacobian_outputs shape hx ?_ hpass, fun i j hij => ?_⟩
  · rintro rfl
    have hempty : ∀ f ∈ fs, f.eval #[] = .ok (f.result #[]) :=
      fun f hf => eval_eq_result (hplain f hf) (hleast f hf)
    exact ⟨_, VectorFormula.map_outputs shape hempty, by simp⟩
  · have hmem : fs.get i ∈ fs := List.get_mem ..
    have hfits : (fs.get i).IsPlain x.data.size := hsize.symm ▸ hplain _ hmem
    obtain ⟨d, hd, hrests⟩ := exists_eval_resting hfits (hleast _ hmem)
    have heq := (hpass j _ hmem).symm.trans ((hij.eval_seeded x.data).trans hd)
    exact (Except.ok.inj heq).symm ▸ hrests

/-- **Tangents of inputs that do not occur.**  If no power has the least exponent, there is a
Jacobian, and in the column of an input that an expression does not read the entry is zero if all
factors, dividends, divisors and reciprocals of divisors in the expression are finite at the point,
and a NaN if one of them is not.  With a power that has the least exponent there is no Jacobian. -/
theorem omitted_tangents (shape : Shape) (hx : x.shape = (n, 1)) (hplain : ∀ f ∈ fs, f.IsPlain n) :
    ((∀ f ∈ fs, f.AvoidsLeast) →
      ∃ jacobian, (VectorFormula.outputs shape fs).map.jacobian x = .ok jacobian ∧
        jacobian.shape = (fs.length, n) ∧
        ∀ (i : Fin fs.length) (j : Fin n), (fs.get i).Omits j →
          ∃ t, jacobian.get? i j = some t ∧
            ((fs.get i).Bounded x.data → (t == 0) = true) ∧
            (¬(fs.get i).Bounded x.data → Scalar.isNaN t = true)) ∧
    ((∃ f ∈ fs, ¬f.AvoidsLeast) →
      (VectorFormula.outputs shape fs).map.jacobian x =
        .error (.missingExponent Int32.minValue)) := by
  refine ⟨fun hleast => ?_, fun hleast => ?_⟩
  · obtain ⟨entry, hjacobian, hrests⟩ := exists_jacobian shape hx hplain hleast
    refine ⟨_, hjacobian, rfl, fun i j hij => ⟨entry i j, ?_, ?_⟩⟩
    · rw [Matrix.get?_ofFn, dif_pos ⟨i.isLt, j.isLt⟩]
    · obtain ⟨hp, ht⟩ | ⟨hp, ht⟩ := hrests i j hij
      · exact ⟨fun _ => ht, fun h => absurd hp h⟩
      · exact ⟨fun h => absurd h hp, fun _ => ht⟩
  · refine DualMap.jacobian_eq_error hx fun v hv => ?_
    exact map_outputs_eq_error shape (hv ▸ hplain) hleast

/-- A root times its input, whose derivative is unbounded at zero. -/
def rootTimesInput : Formula Float := .mul (.sqrt (.input 0)) (.input 0)

def reciprocal : Formula Float := .div (const 1) (.input 0)

/-- With the first of two inputs at zero, the product does not leak and the quotient does. -/
theorem omitted_tangents_at_zero :
    ∃ jacobian, (VectorFormula.outputs (2, 1) [rootTimesInput, reciprocal]).map.jacobian
        (.column #[0, 1]) = .ok jacobian ∧ jacobian.shape = (2, 2) ∧
      (∃ t, jacobian.get? 0 1 = some t ∧ (t == 0) = true) ∧
      ∃ t, jacobian.get? 1 1 = some t ∧ Scalar.isNaN t = true := by
  have hplain : ∀ f ∈ [rootTimesInput, reciprocal], f.IsPlain 2 := by
    simp [rootTimesInput, reciprocal, const, Dual.constant, IsPlain, Everywhere]
  have hleast : ∀ f ∈ [rootTimesInput, reciprocal], f.AvoidsLeast := by
    simp [rootTimesInput, reciprocal, const, AvoidsLeast, Everywhere]
  have hbounded : rootTimesInput.Bounded #[0, 1] :=
    ⟨⟨by decide +kernel, by decide +kernel⟩, ⟨trivial, trivial⟩, trivial⟩
  have hunbounded : ¬reciprocal.Bounded #[0, 1] := by
    intro h
    have hreciprocal : HasValue #[0, 1] (fun v => Scalar.isFinite (1 / v)) (.input 0) := h.1.2.2
    revert hreciprocal
    decide +kernel
  have hcolumn : (Matrix.column #[(0 : Float), 1]).shape = (2, 1) := rfl
  obtain ⟨jacobian, hjacobian, hshape, hentries⟩ :=
    (omitted_tangents (2, 1) hcolumn hplain).1 hleast
  obtain ⟨t, ht, hzero, _⟩ := hentries 0 1 (by simp [rootTimesInput, Omits, Everywhere])
  obtain ⟨u, hu, _, hnan⟩ := hentries 1 1 (by simp [reciprocal, const, Omits, Everywhere])
  exact ⟨jacobian, hjacobian, hshape, ⟨t, ht, hzero hbounded⟩, u, hu, hnan hunbounded⟩

/-- **The reciprocal of an input that is zero leaks**: it does not read the other input, and has a
NaN in its column.  The power `-1` is the same function, and has a zero there. -/
theorem reciprocal_leaks :
    reciprocal.IsPlain 2 ∧ reciprocal.AvoidsLeast ∧ reciprocal.Omits 1 ∧
    (((VectorFormula.outputs (1, 1) [reciprocal]).map.jacobian
      (.column #[0, 1])).toOption.bind (·.get? 0 1)).any Scalar.isNaN = true ∧
    (((VectorFormula.outputs (1, 1) [.powInt (.input 0) (-1)]).map.jacobian
      (.column #[0, 1])).toOption.bind (·.get? 0 1)).any (· == (0 : Float)) = true := by
  refine ⟨?_, ?_, ?_, by decide +kernel, by decide +kernel⟩
  · simp [reciprocal, const, Dual.constant, IsPlain, Everywhere]
  · simp [reciprocal, const, AvoidsLeast, Everywhere]
  · simp [reciprocal, const, Omits, Everywhere]

end Formula

end InteriorPoint
