import Mathlib
import InteriorPoint.Scalar

/-!
# Proofs/Exact — scalars without rounding

An `ExactScalar` is a linearly ordered field.  Square root, exponential, logarithm and power may be
any functions: what is said of exact scalars holds whatever stands for them.  Every scalar is finite
and none is a NaN, so the operations that pass over a NaN are the usual ones.

Loops over lists are read as sums: `foldl_add_eq`, `foldl_sub_eq`, `sum_filter_finRange`.
-/

namespace InteriorPoint

/-- **Arithmetic without rounding**: an ordered field, with functions in the place of those that it
need not have. -/
class ExactScalar (K : Type) extends Field K, LinearOrder K, IsStrictOrderedRing K where
  sqrt : K → K
  exp : K → K
  ln : K → K
  pow : K → K → K
  infinity : K
  descentBound : (ratio start floor : K) → Nat

namespace ExactScalar

/-- Computations over exact scalars. -/
instance toScalar {K : Type} [ExactScalar K] : Scalar K where
  beq a b := decide (a = b)
  decidableLT := inferInstance
  decidableLE := inferInstance
  ofInt := Int.cast
  sqrt := ExactScalar.sqrt
  exp := ExactScalar.exp
  ln := ExactScalar.ln
  pow := ExactScalar.pow
  isFinite _ := true
  isNaN _ := false
  infinity := ExactScalar.infinity
  descentBound := ExactScalar.descentBound

/-- Rounds enough for a descent: the powers of `1 / ratio` grow at least by `1 / ratio - 1` each
time. -/
def descentRounds {K : Type} [Field K] [LinearOrder K] [FloorSemiring K] (ratio start floor : K) :
    ℕ :=
  ⌈start / floor / (1 / ratio - 1)⌉₊

/-- **They are enough**: that many times a part of it, nothing is left above the floor. -/
theorem pow_descentRounds_mul_le {K : Type} [Field K] [LinearOrder K] [IsStrictOrderedRing K]
    [FloorSemiring K] {ratio floor : K} (start : K) (hratio : 0 < ratio ∧ ratio < 1)
    (hfloor : 0 < floor) : ratio ^ descentRounds ratio start floor * start ≤ floor := by
  have hgap : 0 < 1 / ratio - 1 := sub_pos.mpr ((one_lt_div hratio.1).mpr hratio.2)
  set n := descentRounds ratio start floor
  -- Bernoulli's inequality
  have hbernoulli : 1 + n * (1 / ratio - 1) ≤ (1 / ratio) ^ n := by
    have h := one_add_mul_le_pow (a := 1 / ratio - 1) (by linarith) n
    rwa [add_sub_cancel] at h
  have hceil : start / floor ≤ n * (1 / ratio - 1) := (div_le_iff₀ hgap).mp (Nat.le_ceil _)
  have hgrown : start / floor ≤ (1 / ratio) ^ n := by linarith
  rw [div_pow, one_pow, div_le_div_iff₀ hfloor (pow_pos hratio.1 n), one_mul, mul_comm] at hgrown
  exact hgrown

/-- The rationals.  Nothing is said of functions that lead out of them. -/
instance : ExactScalar ℚ where
  sqrt := id
  exp := id
  ln := id
  pow a _ := a
  infinity := 0
  descentBound := descentRounds

variable {K : Type} [ExactScalar K]

theorem scalarAbs_eq (a : K) : Scalar.abs a = |a| := by
  rw [Scalar.abs]
  split
  · rename_i h
    rw [abs_of_nonpos h, zero_sub]
  · rename_i h
    rw [abs_of_pos (not_le.mp h)]

theorem beq_iff_eq {a b : K} : (a == b) = true ↔ a = b := decide_eq_true_iff

/-! ## Loops as sums -/

variable {β : Type}

theorem foldl_add_eq (f : β → K) (xs : List β) (start : K) :
    xs.foldl (fun acc j => acc + f j) start = start + (xs.map f).sum := by
  induction xs generalizing start with
  | nil => simp
  | cons j xs ih => rw [List.foldl_cons, ih, List.map_cons, List.sum_cons, add_assoc]

theorem foldl_sub_eq (f : β → K) (xs : List β) (start : K) :
    xs.foldl (fun acc j => acc - f j) start = start - (xs.map f).sum := by
  induction xs generalizing start with
  | nil => simp
  | cons j xs ih => rw [List.foldl_cons, ih, List.map_cons, List.sum_cons, sub_sub]

/-- A sum over the indices with a property. -/
theorem sum_filter_finRange {n : ℕ} (p : Fin n → Prop) [DecidablePred p] (f : Fin n → K) :
    (((List.finRange n).filter p).map f).sum = ∑ j, if p j then f j else 0 := by
  have hlist : ∀ xs : List (Fin n),
      ((xs.filter p).map f).sum = (xs.map fun j => if p j then f j else 0).sum := by
    intro xs
    induction xs with
    | nil => rfl
    | cons j xs ih =>
      by_cases hj : p j
      · simp [hj, ih]
      · simp [hj, ih]
  rw [hlist, Fin.sum_univ_def]

end ExactScalar

end InteriorPoint
