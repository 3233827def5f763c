import Mathlib
import InteriorPoint.Formula
import InteriorPoint.Proofs.Dual
import InteriorPoint.Proofs.Sequence

/-!
# Proofs/Formula — the functions that expressions stand for

An expression over the reals stands for a function of its inputs (`meaning`).  Where every divisor,
logarithm, root and power in it is defined and smooth, evaluating it on dual numbers carries that
function: one case per constructor, each by the rule of its operation (`exists_carries`).

* `eval_outcome` — for any arithmetic, the only thing that can go wrong in an expression built from
  constants and inputs is a power with the least exponent.
-/

namespace InteriorPoint.Formula

/-! ## Parts of an expression -/

section Parts

variable {α : Type}

/-- **A property of every part of an expression**, the whole included. -/
def Everywhere (P : Formula α → Prop) : Formula α → Prop
  | dual d => P (dual d)
  | input i => P (input i)
  | add a b => P (add a b) ∧ a.Everywhere P ∧ b.Everywhere P
  | sub a b => P (sub a b) ∧ a.Everywhere P ∧ b.Everywhere P
  | mul a b => P (mul a b) ∧ a.Everywhere P ∧ b.Everywhere P
  | div a b => P (div a b) ∧ a.Everywhere P ∧ b.Everywhere P
  | neg a => P (neg a) ∧ a.Everywhere P
  | exp a => P (exp a) ∧ a.Everywhere P
  | ln a => P (ln a) ∧ a.Everywhere P
  | sqrt a => P (sqrt a) ∧ a.Everywhere P
  | powInt a k => P (powInt a k) ∧ a.Everywhere P
  | pow a c => P (pow a c) ∧ a.Everywhere P

/-- **Built from constants and from the first `n` inputs.** -/
def IsPlain [Scalar α] (n : ℕ) : Formula α → Prop := Everywhere fun
  | dual d => d.eps = 0
  | input i => i < n
  | _ => True

/-- **No power has the least exponent.** -/
def AvoidsLeast : Formula α → Prop := Everywhere fun
  | powInt _ k => k ≠ Int32.minValue
  | _ => True

end Parts

/-! ## When an expression can be evaluated -/

section Outcome

variable {α : Type}

/-- A result exactly under a condition, and otherwise a power with the least exponent. -/
def Depends (condition : Prop) (r : Except (Error α) (Dual α)) : Prop :=
  (condition ∧ ∃ d, r = .ok d) ∨
    (¬condition ∧ r = .error (.missingExponent Int32.minValue))

theorem Depends.bind {p q : Prop} {r : Except (Error α) (Dual α)}
    {next : Dual α → Except (Error α) (Dual α)} (hr : Depends p r)
    (hnext : ∀ d, Depends q (next d)) : Depends (p ∧ q) (r >>= next) := by
  obtain ⟨hp, d, rfl⟩ | ⟨hp, rfl⟩ := hr
  · obtain ⟨hq, hnext⟩ | ⟨hq, hnext⟩ := hnext d
    · exact .inl ⟨⟨hp, hq⟩, hnext⟩
    · exact .inr ⟨fun h => hq h.2, hnext⟩
  · exact .inr ⟨fun h => hp h.1, rfl⟩

theorem depends_pure (d : Dual α) : Depends True (pure d) := .inl ⟨trivial, d, rfl⟩

theorem Depends.of_iff {p q : Prop} {r : Except (Error α) (Dual α)} (h : Depends p r)
    (hpq : p ↔ q) : Depends q r := propext hpq ▸ h

theorem Depends.map {p : Prop} {r : Except (Error α) (Dual α)} (hr : Depends p r)
    (op : Dual α → Dual α) : Depends (True ∧ p) (do return op (← r)) :=
  (hr.bind fun _ => depends_pure _).of_iff and_comm

theorem Depends.map₂ {p q : Prop} {r t : Except (Error α) (Dual α)} (hr : Depends p r)
    (ht : Depends q t) (op : Dual α → Dual α → Dual α) :
    Depends (True ∧ p ∧ q) (do return op (← r) (← t)) :=
  (hr.bind fun _ => ht.bind fun _ => depends_pure _).of_iff (by tauto)

/-- **An expression built from constants and inputs has a value exactly if no power in it has the
least exponent.** -/
theorem eval_outcome [Scalar α] {f : Formula α} {v : Array (Dual α)}
    (hf : f.IsPlain v.size) : Depends f.AvoidsLeast (f.eval v) := by
  induction f with
  | dual d => exact depends_pure d
  | input i => exact .inl ⟨trivial, _, dif_pos hf⟩
  | add a b iha ihb => exact (iha hf.2.1).map₂ (ihb hf.2.2) (· + ·)
  | sub a b iha ihb => exact (iha hf.2.1).map₂ (ihb hf.2.2) (· - ·)
  | mul a b iha ihb => exact (iha hf.2.1).map₂ (ihb hf.2.2) (· * ·)
  | div a b iha ihb => exact (iha hf.2.1).map₂ (ihb hf.2.2) (· / ·)
  | neg a iha => exact (iha hf.2).map (- ·)
  | exp a iha => exact (iha hf.2).map Dual.exp
  | ln a iha => exact (iha hf.2).map Dual.ln
  | sqrt a iha => exact (iha hf.2).map Dual.sqrt
  | pow a c iha => exact (iha hf.2).map (·.pow c)
  | powInt a k iha =>
    have hpower : ∀ d : Dual α, Depends (k ≠ Int32.minValue) (d.powInt k) := by
      intro d
      by_cases hk : k = Int32.minValue
      · exact .inr ⟨not_not.mpr hk, by rw [Dual.powInt, if_pos hk, hk]⟩
      · exact .inl ⟨hk, _, if_neg hk⟩
    exact ((iha hf.2).bind hpower).of_iff and_comm

end Outcome

/-! ## The meaning of an expression -/

variable {n : ℕ} {x : Fin n → ℝ}

/-- **The function that an expression stands for.**  An input that is not there counts as zero. -/
noncomputable def meaning : Formula ℝ → (Fin n → ℝ) → ℝ
  | dual d, _ => d.re
  | input i, x => if h : i < n then x ⟨i, h⟩ else 0
  | add a b, x => a.meaning x + b.meaning x
  | sub a b, x => a.meaning x - b.meaning x
  | mul a b, x => a.meaning x * b.meaning x
  | div a b, x => a.meaning x / b.meaning x
  | neg a, x => -a.meaning x
  | exp a, x => Real.exp (a.meaning x)
  | ln a, x => Real.log (a.meaning x)
  | sqrt a, x => √(a.meaning x)
  | powInt a k, x => a.meaning x ^ k.toInt
  | pow a c, x => a.meaning x ^ c

/-- **Defined and smooth at a point**: divisors are not zero, logarithms, roots and powers are of
positive numbers, and integer powers with a negative exponent not of zero. -/
def IsSmoothAt (x : Fin n → ℝ) : Formula ℝ → Prop := Everywhere fun
  | div _ b => b.meaning x ≠ 0
  | ln a => 0 < a.meaning x
  | sqrt a => 0 < a.meaning x
  | powInt a k => k < 0 → a.meaning x ≠ 0
  | pow a _ => 0 < a.meaning x
  | _ => True

/-- The inputs at a point, moving along a direction. -/
def moving (x d : Fin n → ℝ) : Array (Dual ℝ) := Array.ofFn fun j => ⟨x j, d j⟩

@[simp] theorem size_moving (x d : Fin n → ℝ) : (moving x d).size = n := Array.size_ofFn

/-- What carries the arguments of an operation is handed on to it. -/
theorem exists_carries {f : Formula ℝ} (hplain : f.IsPlain n) (hsmooth : f.IsSmoothAt x)
    (hleast : f.AvoidsLeast) :
    ∃ v, (∀ d, f.eval (moving x d) = .ok (v d)) ∧ Dual.Carries v f.meaning x := by
  induction f with
  | dual d =>
    refine ⟨fun _ => ⟨d.re, 0⟩, fun _ => congrArg Except.ok ?_, Dual.carries_constant d.re⟩
    exact congrArg (Dual.mk d.re) hplain
  | input i =>
    have hi : i < n := hplain
    refine ⟨fun d => ⟨x ⟨i, hi⟩, d ⟨i, hi⟩⟩, fun d => ?_, ?_⟩
    · rw [eval, readInput, dif_pos (by simpa using hi)]
      simp [moving]
    · simpa only [meaning, dif_pos hi] using Dual.carries_coordinate (x := x) ⟨i, hi⟩
  | add a b iha ihb =>
    obtain ⟨v, hv, hcv⟩ := iha hplain.2.1 hsmooth.2.1 hleast.2.1
    obtain ⟨w, hw, hcw⟩ := ihb hplain.2.2 hsmooth.2.2 hleast.2.2
    exact ⟨_, fun d => by rw [eval, hv, hw]; rfl, hcv.add hcw⟩
  | sub a b iha ihb =>
    obtain ⟨v, hv, hcv⟩ := iha hplain.2.1 hsmooth.2.1 hleast.2.1
    obtain ⟨w, hw, hcw⟩ := ihb hplain.2.2 hsmooth.2.2 hleast.2.2
    exact ⟨_, fun d => by rw [eval, hv, hw]; rfl, hcv.sub hcw⟩
  | mul a b iha ihb =>
    obtain ⟨v, hv, hcv⟩ := iha hplain.2.1 hsmooth.2.1 hleast.2.1
    obtain ⟨w, hw, hcw⟩ := ihb hplain.2.2 hsmooth.2.2 hleast.2.2
    exact ⟨_, fun d => by rw [eval, hv, hw]; rfl, hcv.mul hcw⟩
  | div a b iha ihb =>
    obtain ⟨v, hv, hcv⟩ := iha hplain.2.1 hsmooth.2.1 hleast.2.1
    obtain ⟨w, hw, hcw⟩ := ihb hplain.2.2 hsmooth.2.2 hleast.2.2
    exact ⟨_, fun d => by rw [eval, hv, hw]; rfl, hcv.div hcw hsmooth.1⟩
  | neg a iha =>
    obtain ⟨v, hv, hcv⟩ := iha hplain.2 hsmooth.2 hleast.2
    exact ⟨_, fun d => by rw [eval, hv]; rfl, hcv.neg⟩
  | exp a iha =>
    obtain ⟨v, hv, hcv⟩ := iha hplain.2 hsmooth.2 hleast.2
    exact ⟨_, fun d => by rw [eval, hv]; rfl, hcv.exp⟩
  | ln a iha =>
    obtain ⟨v, hv, hcv⟩ := iha hplain.2 hsmooth.2 hleast.2
    exact ⟨_, fun d => by rw [eval, hv]; rfl, hcv.ln hsmooth.1⟩
  | sqrt a iha =>
    obtain ⟨v, hv, hcv⟩ := iha hplain.2 hsmooth.2 hleast.2
    exact ⟨_, fun d => by rw [eval, hv]; rfl, hcv.sqrt hsmooth.1⟩
  | pow a c iha =>
    obtain ⟨v, hv, hcv⟩ := iha hplain.2 hsmooth.2 hleast.2
    exact ⟨_, fun d => by rw [eval, hv]; rfl, hcv.pow hsmooth.1 c⟩
  | powInt a k iha =>
    obtain ⟨v, hv, hcv⟩ := iha hplain.2 hsmooth.2 hleast.2
    obtain ⟨w, hw, hcw⟩ := hcv.powInt hleast.1 hsmooth.1
    exact ⟨w, fun d => by rw [eval, hv, ok_bind, hw], hcw⟩

end InteriorPoint.Formula
