import Mathlib
import InteriorPoint.Scalar

/-!
# Proofs/Double — signs, order and NaN of doubles

A double that is not a NaN has a sign, zeros and infinities included.  Rounding keeps it
(`sign?_unpack_pack`), so the sign of a result can be read off the exact computation: sums of
non-negative doubles, squares and square roots are never NaN, whatever overflows on the way, and
products and quotients that are numbers keep to the rule of signs (`not_neg_mul_div_neg`).

The comparison of doubles is a linear order on those that are not NaN (`le_iff_rank`), and a maximum
that is at most a bound bounds whichever of its operands is not a NaN (`max_le_iff`).
-/

namespace InteriorPoint.Double

open Float.Model Float.Model.UnpackedFloat

/-! ## Signs -/

/-- The sign of a float; a NaN has none. -/
def sign? : UnpackedFloat → Option Sign
  | .infinity s => some s
  | .notANumber => none
  | .zero s => some s
  | .finite s .. => some s

/-- **The sign of a double.** -/
def sign (x : Float) : Option Sign := sign? x.toModel.unpack

/-- A double is a NaN exactly if it has no sign. -/
theorem isNaN_eq (x : Float) : Scalar.isNaN x = (sign x).isNone := by
  change x.toModel.unpack.isNaN = (sign? x.toModel.unpack).isNone
  cases x.toModel.unpack <;> rfl

/-- The sign that was packed is read back. -/
theorem ofBitVec_unpackSign_packComponents {spec : Format} {s : Sign} {exponent mantissa} :
    Sign.ofBitVec (unpackSign (packComponents spec s exponent mantissa)) = s := by
  have hbit : unpackSign (packComponents spec s exponent mantissa) = s.toBitVec := by
    ext i hi
    obtain rfl : i = 0 := by omega
    simp [unpackSign, packComponents, BitVec.getLsbD_append, BitVec.getElem_append]
  rw [hbit]
  cases s <;> rfl

/-- Packed components have the sign that was packed, unless their exponent says NaN. -/
theorem sign?_unpack_packComponents {spec : Format} {s : Sign} {exponent mantissa}
    (h : exponent = -1#_ → mantissa = 0#_) :
    sign? (UnpackedFloat.unpack spec (packComponents spec s exponent mantissa)) = some s := by
  simp only [UnpackedFloat.unpack, unpackMantissa_packComponents, unpackExponent_packComponents,
    ofBitVec_unpackSign_packComponents]
  split
  · rename_i hexponent
    rw [if_pos (h hexponent)]
    rfl
  · split
    · split <;> rfl
    · rfl

/-- **Packing keeps the sign**, also where it overflows or runs out of bits. -/
theorem sign?_unpack_pack (f : UnpackedFloat) :
    sign? (UnpackedFloat.unpack Format.binary64 (UnpackedFloat.pack Format.binary64 f)) =
      sign? f := by
  cases f with
  | notANumber => rfl
  | infinity s => exact sign?_unpack_packComponents fun _ => rfl
  | zero s => exact sign?_unpack_packComponents fun _ => rfl
  | finite s m e hm =>
    simp only [UnpackedFloat.pack]
    split
    · exact sign?_unpack_packComponents fun _ => rfl
    · rename_i hoverflow
      split
      · refine sign?_unpack_packComponents fun hexponent => ?_
        have hval := congrArg BitVec.toNat hexponent
        simp at hval hoverflow
        omega
      · refine sign?_unpack_packComponents fun hexponent => ?_
        exact absurd hexponent (by decide)

theorem sign_ofModel_pack (f : UnpackedFloat) :
    sign (.ofModel (Float.Model.pack f)) = sign? f := sign?_unpack_pack f

/-! ## Rounding and arithmetic -/

theorem sign?_roundWithAccuracy (spec : Format) (s : Sign) (m : Nat) (e : Int) (a : Accuracy) :
    sign? (roundWithAccuracy spec s m e a) = some s := by
  unfold roundWithAccuracy
  dsimp only
  split <;> rfl

/-- A positive number is rounded to one with a positive sign. -/
theorem sign?_normalize {spec : Format} {m e : Int} {s : Sign} (hm : 0 < m) :
    sign? (UnpackedFloat.normalize spec m e s) = some .positive := by
  have hcompare : compare m 0 = .gt := Int.compare_eq_gt.mpr hm
  rw [UnpackedFloat.normalize, hcompare]
  exact sign?_roundWithAccuracy ..

/-- The sum of two floats of positive sign has a positive sign. -/
theorem sign?_add {spec : Format} : ∀ {f g : UnpackedFloat}, sign? f = some .positive →
    sign? g = some .positive → sign? (UnpackedFloat.add spec f g) = some .positive
  | .infinity _, .infinity _, rfl, rfl => rfl
  | .infinity _, .zero _, rfl, _ => rfl
  | .infinity _, .finite .., rfl, _ => rfl
  | .zero _, .infinity _, _, rfl => rfl
  | .zero _, .zero _, rfl, rfl => rfl
  | .zero _, .finite .., _, rfl => rfl
  | .finite .., .infinity _, _, rfl => rfl
  | .finite .., .zero _, rfl, _ => rfl
  | .finite _ m e hm, .finite _ m' e' hm', rfl, rfl => by
    refine sign?_normalize ?_
    have hpos : 0 < m <<< (e - min e e').toNat := by
      rw [Nat.shiftLeft_eq]
      exact Nat.mul_pos hm (Nat.two_pow_pos _)
    have hnonneg : (0 : Int) ≤ (m' <<< (e' - min e e').toNat : Nat) := Int.natCast_nonneg _
    exact Int.add_pos_of_pos_of_nonneg (Int.natCast_pos.mpr hpos) hnonneg

/-- Floats of one sign have a product, of positive sign, unless one is zero and one infinite. -/
theorem sign?_mul {spec : Format} {s : Sign} : ∀ {f g : UnpackedFloat}, sign? f = some s →
    sign? g = some s → (f.isInf = true → ∀ t, g ≠ .zero t) → (g.isInf = true → ∀ t, f ≠ .zero t) →
    sign? (UnpackedFloat.mul spec f g) = some (s * s)
  | .infinity _, .infinity _, rfl, rfl, _, _ => rfl
  | .infinity _, .zero _, rfl, _, hf, _ => absurd rfl (hf rfl _)
  | .infinity _, .finite .., rfl, rfl, _, _ => rfl
  | .zero _, .infinity _, _, rfl, _, hg => absurd rfl (hg rfl _)
  | .zero _, .zero _, rfl, rfl, _, _ => rfl
  | .zero _, .finite .., rfl, rfl, _, _ => rfl
  | .finite .., .infinity _, rfl, rfl, _, _ => rfl
  | .finite .., .zero _, rfl, rfl, _, _ => rfl
  | .finite .., .finite .., rfl, rfl, _, _ => sign?_roundWithAccuracy ..

/-- **A product that is a number** is one of numbers, and its sign the product of theirs. -/
theorem exists_of_sign?_mul {spec : Format} {u : Sign} : ∀ {f g : UnpackedFloat},
    sign? (UnpackedFloat.mul spec f g) = some u →
      ∃ s t, sign? f = some s ∧ sign? g = some t ∧ u = s * t
  | .infinity s, .infinity t, rfl => ⟨s, t, rfl, rfl, rfl⟩
  | .infinity s, .finite t .., rfl => ⟨s, t, rfl, rfl, rfl⟩
  | .zero s, .zero t, rfl => ⟨s, t, rfl, rfl, rfl⟩
  | .zero s, .finite t .., rfl => ⟨s, t, rfl, rfl, rfl⟩
  | .finite s .., .infinity t, rfl => ⟨s, t, rfl, rfl, rfl⟩
  | .finite s .., .zero t, rfl => ⟨s, t, rfl, rfl, rfl⟩
  | .finite s .., .finite t .., h =>
    ⟨s, t, rfl, rfl, Option.some.inj (h.symm.trans (sign?_roundWithAccuracy ..))⟩

/-- **A quotient that is a number** is one of numbers, and its sign the quotient of theirs. -/
theorem exists_of_sign?_div {spec : Format} {u : Sign} : ∀ {f g : UnpackedFloat},
    sign? (UnpackedFloat.div spec f g) = some u →
      ∃ s t, sign? f = some s ∧ sign? g = some t ∧ u = s / t
  | .infinity s, .zero t, rfl => ⟨s, t, rfl, rfl, rfl⟩
  | .infinity s, .finite t .., rfl => ⟨s, t, rfl, rfl, rfl⟩
  | .zero s, .infinity t, rfl => ⟨s, t, rfl, rfl, rfl⟩
  | .zero s, .finite t .., rfl => ⟨s, t, rfl, rfl, rfl⟩
  | .finite s .., .infinity t, rfl => ⟨s, t, rfl, rfl, rfl⟩
  | .finite s .., .zero t, rfl => ⟨s, t, rfl, rfl, rfl⟩
  | .finite s .., .finite t .., h =>
    ⟨s, t, rfl, rfl, Option.some.inj (h.symm.trans (sign?_roundWithAccuracy ..))⟩

/-- A sum that is a number is one of numbers. -/
theorem isSome_of_sign?_add {spec : Format} {f g : UnpackedFloat}
    (h : (sign? (UnpackedFloat.add spec f g)).isSome) : (sign? f).isSome ∧ (sign? g).isSome := by
  cases f with
  | notANumber => cases h
  | _ =>
    cases g with
    | notANumber => cases h
    | _ => exact ⟨rfl, rfl⟩

/-- …and so is a difference. -/
theorem isSome_of_sign?_sub {spec : Format} {f g : UnpackedFloat}
    (h : (sign? (UnpackedFloat.sub spec f g)).isSome) : (sign? f).isSome ∧ (sign? g).isSome := by
  cases f with
  | notANumber => cases h
  | _ =>
    cases g with
    | notANumber => cases h
    | _ => exact ⟨rfl, rfl⟩

/-- Negation turns the sign round. -/
theorem sign?_neg (f : UnpackedFloat) : sign? f.neg = (sign? f).map fun s => -s := by
  cases f <;> rfl

/-- The square root of a float of positive sign has a positive sign. -/
theorem sign?_sqrt {spec : Format} : ∀ {f : UnpackedFloat}, sign? f = some .positive →
    sign? (UnpackedFloat.sqrt spec f) = some .positive
  | .infinity _, rfl => rfl
  | .zero _, rfl => rfl
  | .finite .., rfl => sign?_roundWithAccuracy ..

/-- A difference is a number if both operands are, and one of them is finite. -/
theorem isSome_sign?_sub {spec : Format} : ∀ {f g : UnpackedFloat}, (sign? f).isSome →
    (sign? g).isSome → f.isFinite ∨ g.isFinite → (sign? (UnpackedFloat.sub spec f g)).isSome
  | .infinity _, .infinity _, _, _, h => nomatch h
  | .infinity _, .zero _, _, _, _ => rfl
  | .infinity _, .finite .., _, _, _ => rfl
  | .zero _, .infinity _, _, _, _ => rfl
  | .zero s, .zero t, _, _, _ => by
    rw [UnpackedFloat.sub]
    split <;> rfl
  | .zero _, .finite .., _, _, _ => rfl
  | .finite .., .infinity _, _, _, _ => rfl
  | .finite .., .zero _, _, _, _ => rfl
  | .finite .., .finite .., _, _, _ => by
    rw [UnpackedFloat.sub]
    dsimp only
    rw [UnpackedFloat.normalize]
    split
    · rw [UnpackedFloat.round]
      exact congrArg Option.isSome (sign?_roundWithAccuracy ..)
    · rfl
    · rw [UnpackedFloat.round]
      exact congrArg Option.isSome (sign?_roundWithAccuracy ..)

/-! ## Order -/

/-- **The place of a float in the order**: its kind, and exponent and mantissa if it is finite and
not zero.  A NaN has no place. -/
def rank : UnpackedFloat → Option (ℤ ×ₗ ℤ ×ₗ ℤ)
  | .notANumber => none
  | .infinity .negative => some (toLex (-2, toLex (0, 0)))
  | .finite .negative m e _ => some (toLex (-1, toLex (-e, -m)))
  | .zero _ => some (toLex (0, toLex (0, 0)))
  | .finite .positive m e _ => some (toLex (1, toLex (e, m)))
  | .infinity .positive => some (toLex (2, toLex (0, 0)))

theorem isSome_rank (f : UnpackedFloat) : (rank f).isSome = (sign? f).isSome := by
  cases f with
  | notANumber => rfl
  | infinity s => cases s <;> rfl
  | zero s => rfl
  | finite s m e hm => cases s <;> rfl

theorem isLE_compare_then {e e' : ℤ} {m m' : ℕ} :
    ((compare e e').then (compare m m')).isLE ↔ e < e' ∨ e = e' ∧ m ≤ m' := by
  rw [Ordering.isLE_then_iff_or, Int.compare_eq_lt, Int.compare_eq_eq, Nat.isLE_compare]

theorem isGE_compare_then {e e' : ℤ} {m m' : ℕ} :
    ((compare e e').then (compare m m')).isGE ↔ e' < e ∨ e = e' ∧ m' ≤ m := by
  rw [← Ordering.isLE_swap, Ordering.swap_then, Int.compare_swap, Nat.compare_swap,
    isLE_compare_then, eq_comm]

/-- **The comparison of floats is that of their places.** -/
theorem le_iff_rank {f g : UnpackedFloat} {p q : ℤ ×ₗ ℤ ×ₗ ℤ} (hf : rank f = some p)
    (hg : rank g = some q) : f.le g ↔ p ≤ q := by
  rcases f with (_ | _) | _ | _ | ⟨_ | _, m, e, hm⟩ <;>
  rcases g with (_ | _) | _ | _ | ⟨_ | _, m', e', hm'⟩ <;>
  cases hf <;> cases hg <;>
  simp [UnpackedFloat.le, UnpackedFloat.compare, Prod.Lex.toLex_le_toLex]
  -- what is left are two infinities, and two finite floats of one sign
  · rfl
  · rfl
  · rfl
  · rfl
  · exact isGE_compare_then
  · exact isLE_compare_then

theorem exists_rank_of_le {f g : UnpackedFloat} (h : f.le g) :
    ∃ p q, rank f = some p ∧ rank g = some q := by
  have hf : (sign? f).isSome := by
    cases f with
    | notANumber => cases h
    | _ => rfl
  have hg : (sign? g).isSome := by
    cases g with
    | notANumber => cases f <;> cases h
    | _ => rfl
  rw [← isSome_rank, Option.isSome_iff_exists] at hf hg
  obtain ⟨p, hp⟩ := hf
  obtain ⟨q, hq⟩ := hg
  exact ⟨p, q, hp, hq⟩

variable {a b c : Float}

theorem le_iff_unpack : a ≤ b ↔ a.toModel.unpack.le b.toModel.unpack := decide_eq_true_iff

theorem lt_iff_unpack : a < b ↔ a.toModel.unpack.lt b.toModel.unpack := decide_eq_true_iff

theorem isNaN_eq_false_iff : Scalar.isNaN a = false ↔ ∃ p, rank a.toModel.unpack = some p := by
  rw [isNaN_eq, ← Option.isSome_iff_exists, isSome_rank, sign, Option.isNone_eq_false_iff]

/-- What is compared is not a NaN. -/
theorem isNaN_of_le (h : a ≤ b) : Scalar.isNaN a = false ∧ Scalar.isNaN b = false := by
  obtain ⟨p, q, hp, hq⟩ := exists_rank_of_le (le_iff_unpack.mp h)
  exact ⟨isNaN_eq_false_iff.mpr ⟨p, hp⟩, isNaN_eq_false_iff.mpr ⟨q, hq⟩⟩

protected theorem le_trans (hab : a ≤ b) (hbc : b ≤ c) : a ≤ c := by
  rw [le_iff_unpack] at hab hbc ⊢
  obtain ⟨p, q, hp, hq⟩ := exists_rank_of_le hab
  obtain ⟨q', r, hq', hr⟩ := exists_rank_of_le hbc
  obtain rfl : q = q' := Option.some.inj (hq.symm.trans hq')
  rw [le_iff_rank hp hq] at hab
  rw [le_iff_rank hq hr] at hbc
  exact (le_iff_rank hp hr).mpr (hab.trans hbc)

/-- Of two doubles that are not NaN, one is at most the other. -/
protected theorem le_total (ha : Scalar.isNaN a = false) (hb : Scalar.isNaN b = false) :
    a ≤ b ∨ b ≤ a := by
  obtain ⟨p, hp⟩ := isNaN_eq_false_iff.mp ha
  obtain ⟨q, hq⟩ := isNaN_eq_false_iff.mp hb
  rw [le_iff_unpack, le_iff_unpack, le_iff_rank hp hq, le_iff_rank hq hp]
  exact le_total p q

/-! ## Maxima

The maximum passes over a NaN, so a bound on it says something about an operand only if that operand
is a number. -/

theorem left_le_of_max_le (ha : Scalar.isNaN a = false) (h : Scalar.max a b ≤ c) : a ≤ c := by
  rw [Scalar.max, if_neg (by rw [ha]; exact Bool.false_ne_true)] at h
  split at h
  · rename_i hab
    exact Double.le_trans hab h
  · exact h

theorem right_le_of_max_le (hb : Scalar.isNaN b = false) (h : Scalar.max a b ≤ c) : b ≤ c := by
  rw [Scalar.max] at h
  split at h
  · exact h
  · rename_i ha
    split at h
    · exact h
    · rename_i hab
      have ha : Scalar.isNaN a = false := Bool.not_eq_true _ ▸ ha
      exact Double.le_trans ((Double.le_total ha hb).resolve_left hab) h

/-- **A maximum is at most a bound** if an operand is a number, and every operand that is one is at
most the bound. -/
theorem max_le_iff : Scalar.max a b ≤ c ↔ (Scalar.isNaN a = false ∨ Scalar.isNaN b = false) ∧
    (Scalar.isNaN a = false → a ≤ c) ∧ (Scalar.isNaN b = false → b ≤ c) := by
  constructor
  · intro h
    refine ⟨?_, fun ha => left_le_of_max_le ha h, fun hb => right_le_of_max_le hb h⟩
    cases ha : Scalar.isNaN a with
    | false => exact .inl rfl
    | true =>
      rw [Scalar.max, if_pos ha] at h
      exact .inr (isNaN_of_le h).1
  · rintro ⟨hnumber, ha, hb⟩
    rw [Scalar.max]
    split_ifs with hnan hab
    · exact hb (hnumber.resolve_left (by rw [hnan]; exact Bool.noConfusion))
    · exact hb (isNaN_of_le hab).2
    · exact ha (Bool.eq_false_iff.mpr hnan)

/-- A maximum is a number if one of its operands is. -/
theorem isNaN_max_of_left (ha : Scalar.isNaN a = false) :
    Scalar.isNaN (Scalar.max a b) = false := by
  rw [Scalar.max, if_neg (by rw [ha]; exact Bool.false_ne_true)]
  split
  · rename_i hab
    exact (isNaN_of_le hab).2
  · exact ha

/-! ## Results that are numbers -/

theorem sign_add_eq : sign (a + b) =
    sign? (UnpackedFloat.add Format.binary64 a.toModel.unpack b.toModel.unpack) :=
  sign_ofModel_pack _

theorem sign_sub_eq : sign (a - b) =
    sign? (UnpackedFloat.sub Format.binary64 a.toModel.unpack b.toModel.unpack) :=
  sign_ofModel_pack _

theorem sign_mul_eq : sign (a * b) =
    sign? (UnpackedFloat.mul Format.binary64 a.toModel.unpack b.toModel.unpack) :=
  sign_ofModel_pack _

theorem sign_div_eq : sign (a / b) =
    sign? (UnpackedFloat.div Format.binary64 a.toModel.unpack b.toModel.unpack) :=
  sign_ofModel_pack _

theorem sign_neg_eq : sign (-a) = (sign a).map fun s => -s :=
  (sign_ofModel_pack _).trans (sign?_neg _)

theorem sign_sqrt_eq : sign (Scalar.sqrt a) =
    sign? (UnpackedFloat.sqrt Format.binary64 a.toModel.unpack) :=
  sign_ofModel_pack _

theorem isNaN_of_sign {s : Sign} (h : sign a = some s) : Scalar.isNaN a = false := by
  rw [isNaN_eq, h]
  rfl

theorem isNaN_of_isFinite (h : Scalar.isFinite a = true) : Scalar.isNaN a = false := by
  change a.toModel.unpack.isFinite = true at h
  change a.toModel.unpack.isNaN = false
  cases hu : a.toModel.unpack with
  | notANumber =>
    rw [hu] at h
    cases h
  | _ => rfl

/-- A positive double has a positive sign, and is not zero. -/
theorem sign_of_pos (h : 0 < a) :
    sign a = some .positive ∧ ∀ t, a.toModel.unpack ≠ .zero t := by
  have h : UnpackedFloat.lt (.zero .positive) a.toModel.unpack = true := lt_iff_unpack.mp h
  rw [sign]
  generalize a.toModel.unpack = f at h ⊢
  rcases f with (_ | _) | _ | _ | ⟨_ | _, m, e, hm⟩
  · cases h
  · exact ⟨rfl, nofun⟩
  · cases h
  · cases h
  · cases h
  · exact ⟨rfl, nofun⟩

/-- A negative double has a negative sign. -/
theorem sign_of_neg (h : a < 0) : sign a = some .negative := by
  have h : UnpackedFloat.lt a.toModel.unpack (.zero .positive) = true := lt_iff_unpack.mp h
  rw [sign]
  generalize a.toModel.unpack = f at h ⊢
  rcases f with (_ | _) | _ | _ | ⟨_ | _, m, e, hm⟩
  · rfl
  · cases h
  · cases h
  · cases h
  · rfl
  · cases h

/-- **The rule of signs** for a quotient of a negative product by a negative divisor: it is not
negative, whatever overflows or vanishes on the way. -/
theorem not_neg_mul_div_neg {tau v dv : Float} (htau : 0 < tau) (hv : 0 < v) (hdv : dv < 0) :
    ¬ -tau * v / dv < 0 := by
  intro hneg
  obtain ⟨s, t, hs, ht, hst⟩ := exists_of_sign?_div (sign_div_eq.symm.trans (sign_of_neg hneg))
  obtain ⟨s', t', hs', ht', rfl⟩ := exists_of_sign?_mul (sign_mul_eq.symm.trans hs)
  obtain rfl : t = .negative := Option.some.inj (ht.symm.trans (sign_of_neg hdv))
  obtain rfl : t' = .positive := Option.some.inj (ht'.symm.trans (sign_of_pos hv).1)
  have hnegated : sign (-tau) = some (-.positive) := by
    rw [sign_neg_eq, (sign_of_pos htau).1]
    rfl
  obtain rfl : s' = -.positive := Option.some.inj (hs'.symm.trans hnegated)
  exact nomatch hst

/-- A difference is a number if both operands are, and one of them is finite. -/
theorem isNaN_sub (ha : Scalar.isNaN a = false) (hb : Scalar.isNaN b = false)
    (h : Scalar.isFinite a = true ∨ Scalar.isFinite b = true) : Scalar.isNaN (a - b) = false := by
  rw [isNaN_eq, Option.isNone_eq_false_iff] at ha hb ⊢
  rw [sign_sub_eq]
  exact isSome_sign?_sub ha hb h

theorem isNaN_of_add (h : Scalar.isNaN (a + b) = false) :
    Scalar.isNaN a = false ∧ Scalar.isNaN b = false := by
  rw [isNaN_eq, Option.isNone_eq_false_iff, sign_add_eq] at h
  rw [isNaN_eq, isNaN_eq, Option.isNone_eq_false_iff, Option.isNone_eq_false_iff]
  exact isSome_of_sign?_add h

theorem isNaN_of_sub (h : Scalar.isNaN (a - b) = false) :
    Scalar.isNaN a = false ∧ Scalar.isNaN b = false := by
  rw [isNaN_eq, Option.isNone_eq_false_iff, sign_sub_eq] at h
  rw [isNaN_eq, isNaN_eq, Option.isNone_eq_false_iff, Option.isNone_eq_false_iff]
  exact isSome_of_sign?_sub h

theorem isNaN_of_mul (h : Scalar.isNaN (a * b) = false) :
    Scalar.isNaN a = false ∧ Scalar.isNaN b = false := by
  rw [isNaN_eq, Option.isNone_eq_false_iff, Option.isSome_iff_exists] at h
  obtain ⟨u, hu⟩ := h
  obtain ⟨s, t, hs, ht, _⟩ := exists_of_sign?_mul (sign_mul_eq.symm.trans hu)
  exact ⟨isNaN_of_sign hs, isNaN_of_sign ht⟩

theorem isNaN_of_sqrt (h : Scalar.isNaN (Scalar.sqrt a) = false) : Scalar.isNaN a = false := by
  rw [isNaN_eq, Option.isNone_eq_false_iff, sign_sqrt_eq] at h
  rw [isNaN_eq, Option.isNone_eq_false_iff, sign]
  cases hu : a.toModel.unpack with
  | notANumber =>
    rw [hu] at h
    cases h
  | _ => rfl

/-- What a sum has only if both summands have it, a loop of sums has only if all of them do. -/
theorem forall_of_foldl_add {β : Type} {P : Float → Prop} (hP : ∀ {a b}, P (a + b) → P a ∧ P b)
    (f : β → Float) {xs : List β} {acc : Float} (h : P (xs.foldl (fun acc v => acc + f v) acc)) :
    P acc ∧ ∀ v ∈ xs, P (f v) := by
  induction xs generalizing acc with
  | nil => exact ⟨h, fun _ hv => absurd hv List.not_mem_nil⟩
  | cons v xs ih =>
    obtain ⟨hsum, hxs⟩ := ih h
    obtain ⟨hacc, hv⟩ := hP hsum
    exact ⟨hacc, List.forall_mem_cons.mpr ⟨hv, hxs⟩⟩

/-- **The product of positive doubles is a number.** -/
theorem isNaN_mul_of_pos (ha : 0 < a) (hb : 0 < b) : Scalar.isNaN (a * b) = false := by
  obtain ⟨hsa, hza⟩ := sign_of_pos ha
  obtain ⟨hsb, hzb⟩ := sign_of_pos hb
  exact isNaN_of_sign (sign_mul_eq.trans (sign?_mul hsa hsb (fun _ => hzb) (fun _ => hza)))

/-- **The square of a number has a positive sign.** -/
theorem sign_mul_self (ha : Scalar.isNaN a = false) : sign (a * a) = some .positive := by
  rw [isNaN_eq, Option.isNone_eq_false_iff, Option.isSome_iff_exists] at ha
  obtain ⟨s, hs⟩ := ha
  have hinf : a.toModel.unpack.isInf = true → ∀ t, a.toModel.unpack ≠ .zero t := by
    intro h t ht
    rw [ht] at h
    cases h
  have hsquare : s * s = .positive := by cases s <;> rfl
  rw [sign_mul_eq, sign?_mul hs hs hinf hinf, hsquare]

theorem sign_mul_comm (s t : Sign) : s * t = t * s := by
  rcases s <;> rcases t <;> rfl

theorem unpacked_mul_comm (spec : Format) : ∀ f g : UnpackedFloat,
    UnpackedFloat.mul spec f g = UnpackedFloat.mul spec g f
  | .notANumber, g => by rcases g <;> rfl
  | .infinity s, g => by
    rcases g with t | _ | t | ⟨t, _, _, _⟩
    · exact congrArg UnpackedFloat.infinity (sign_mul_comm s t)
    · rfl
    · rfl
    · exact congrArg UnpackedFloat.infinity (sign_mul_comm s t)
  | .zero s, g => by
    rcases g with t | _ | t | ⟨t, _, _, _⟩
    · rfl
    · rfl
    · exact congrArg UnpackedFloat.zero (sign_mul_comm s t)
    · exact congrArg UnpackedFloat.zero (sign_mul_comm s t)
  | .finite s m e hm, g => by
    rcases g with t | _ | t | ⟨t, m', e', hm'⟩
    · exact congrArg UnpackedFloat.infinity (sign_mul_comm s t)
    · rfl
    · exact congrArg UnpackedFloat.zero (sign_mul_comm s t)
    · simp only [UnpackedFloat.mul]
      rw [sign_mul_comm, Nat.mul_comm, Int.add_comm]

/-- **Multiplication of doubles is commutative**: there is one NaN, and the exact product is rounded
once. -/
protected theorem mul_comm (a b : Float) : a * b = b * a :=
  congrArg (fun f => Float.ofModel (Float.Model.pack f))
    (unpacked_mul_comm Format.binary64 a.toModel.unpack b.toModel.unpack)

/-- **The root of a sum of squares of numbers is a number**, whatever overflows on the way. -/
theorem isNaN_sqrt_foldl {β : Type} (f : β → Float) (xs : List β)
    (h : ∀ v ∈ xs, Scalar.isNaN (f v) = false) :
    Scalar.isNaN (Scalar.sqrt (xs.foldl (fun acc v => acc + f v * f v) 0)) = false := by
  -- the sum keeps a positive sign
  have hsum : ∀ (acc : Float) (xs : List β), (∀ v ∈ xs, Scalar.isNaN (f v) = false) →
      sign acc = some .positive →
      sign (xs.foldl (fun acc v => acc + f v * f v) acc) = some .positive := by
    intro acc xs hxs hacc
    induction xs generalizing acc with
    | nil => exact hacc
    | cons v xs ih =>
      refine ih _ (fun w hw => hxs w (List.mem_cons_of_mem v hw)) ?_
      rw [sign_add_eq]
      exact sign?_add hacc (sign_mul_self (hxs v List.mem_cons_self))
  exact isNaN_of_sign (sign_sqrt_eq.trans (sign?_sqrt (hsum 0 xs h rfl)))

end InteriorPoint.Double
