import Mathlib
import InteriorPoint.LineSearch
import InteriorPoint.Proofs.Exact
import InteriorPoint.Proofs.Sequence

/-!
# Proofs/LineSearch — the lengths that a line search tries

Repeated squaring is a power (`powInt_eq_zpow`), so over exact scalars the first `2 ^ 31` trials
have the lengths `alphaMax / 2 ^ l`.  The exponents have thirty-two bits: those of the next `2 ^ 31`
trials are negative, and the lengths are multiples of the first one (`trialLength_eq_zpow`).

* `length_of_search` — a search ends at a length that it has tried, which is positive, and at most
  the longest admissible one as long as exponents do not become negative.
* `accepted_of_search` — at the longest one, if that takes enough off the violation.
* `search_congr` — of the program a search sees no more than the measures of the points it tries.
-/

namespace InteriorPoint

/-! ## What a search sees -/

namespace LineSearch

variable {α : Type} [Scalar α] {p p' : Program α} {size size' : Size} {o : Options α}
  {x x' s s' : Matrix α} {d d' : Direction α} {mu : α}

theorem backtrack_congr
    (htrial : ∀ alpha, (ofOptions p' size' o).trial x' s' d' mu alpha =
      (ofOptions p size o).trial x s d mu alpha) (alphaMax : α) (start : Measures α)
    (left l : ℕ) (last : α) :
    (ofOptions p' size' o).backtrack x' s' d' alphaMax mu start left l last =
      (ofOptions p size o).backtrack x s d alphaMax mu start left l last := by
  induction left generalizing l last with
  | zero => rfl
  | succ left ih =>
    rw [backtrack, backtrack, htrial]
    refine Traced.bind_congr_ok fun m _ => Traced.bind_congr_ok fun _ _ => ?_
    rw [ih]
    rfl

/-- **A search depends on its program** through the measures of the start and of the trials. -/
theorem search_congr
    (hstart : (ofOptions p' size' o).measure x' s' mu = (ofOptions p size o).measure x s mu)
    (htrial : ∀ alpha, (ofOptions p' size' o).trial x' s' d' mu alpha =
      (ofOptions p size o).trial x s d mu alpha) (alphaMax : α) :
    (ofOptions p' size' o).search x' s' d' alphaMax mu =
      (ofOptions p size o).search x s d alphaMax mu := by
  rw [search, search, hstart]
  exact Traced.bind_congr_ok fun start _ => backtrack_congr htrial alphaMax start _ _ _

end LineSearch

/-! ## Lengths -/

variable {K : Type} [ExactScalar K]

/-- One binary digit of an exponent. -/
theorem digit_mul_pow (base acc : K) (n : ℕ) :
    (if n % 2 = 1 then acc * base else acc) * (base * base) ^ (n / 2) = acc * base ^ n := by
  have hdigits : base ^ n = base ^ (n % 2) * (base * base) ^ (n / 2) := by
    rw [← pow_two, ← pow_mul, ← pow_add, Nat.mod_add_div]
  rw [hdigits]
  obtain h | h := Nat.mod_two_eq_zero_or_one n
  · rw [h, if_neg Nat.zero_ne_one, pow_zero, one_mul]
  · rw [h, if_pos rfl, pow_one, mul_assoc]

/-- **Repeated squaring is a power.** -/
theorem squaring_eq (base acc : K) (n : ℕ) : Scalar.squaring base acc n = acc * base ^ n := by
  fun_induction Scalar.squaring base acc n with
  | case1 base acc => rw [pow_zero, mul_one]
  | case2 base acc n _ acc' hhalf =>
    rw [← digit_mul_pow, hhalf, pow_zero, mul_one]
    rfl
  | case3 base acc n _ acc' _ ih =>
    rw [ih, ← digit_mul_pow base acc n]
    rfl

theorem powInt_natCast (base : K) (l : ℕ) : Scalar.powInt base l = base ^ l := by
  rw [Scalar.powInt, if_neg (Int.natCast_nonneg l).not_gt, squaring_eq, one_mul, Int.natAbs_natCast]

/-- **Repeated squaring with a reciprocal is a power with an integer exponent.** -/
theorem powInt_eq_zpow (base : K) (k : ℤ) : Scalar.powInt base k = base ^ k := by
  obtain hk | hk := lt_or_ge k 0
  · obtain ⟨l, rfl⟩ := Int.exists_eq_neg_ofNat hk.le
    rw [Scalar.powInt, if_pos hk, squaring_eq, one_mul, Int.natAbs_neg, Int.natAbs_natCast,
      one_div, zpow_neg, zpow_natCast]
  · obtain ⟨l, rfl⟩ := Int.eq_ofNat_of_zero_le hk
    rw [powInt_natCast, zpow_natCast]

namespace LineSearch

/-- The first `2 ^ 31` trials have their numbers for exponents. -/
theorem trialLength_of_lt {α : Type} [Scalar α] (alphaMax : α) {l : ℕ} (hl : l < 2 ^ 31) :
    trialLength alphaMax l = alphaMax * Scalar.powInt 0.5 l := by
  rw [trialLength, Int32.toInt_ofNat_of_lt hl]

variable {ls : LineSearch K} {x s : Matrix K} {d : Direction K} {alphaMax mu : K}

/-- **The length of any trial**: its number counts modulo `2 ^ 32`, from `- 2 ^ 31` on. -/
theorem trialLength_eq_zpow (alphaMax : K) (l : ℕ) :
    trialLength alphaMax l = alphaMax / 2 ^ (l : ℤ).bmod (2 ^ 32) := by
  have hhalf : (0.5 : K) = 2⁻¹ := by norm_num
  rw [trialLength, powInt_eq_zpow, hhalf, inv_zpow, div_eq_mul_inv, Int32.toInt_ofNat']
  rfl

theorem trialLength_pos (h : 0 < alphaMax) (l : ℕ) : 0 < trialLength alphaMax l := by
  rw [trialLength_eq_zpow]
  exact div_pos h (zpow_pos two_pos _)

/-- **Every trial is half as long as the one before it.** -/
theorem trialLength_eq (alphaMax : K) {l : ℕ} (hl : l < 2 ^ 31) :
    trialLength alphaMax l = alphaMax / 2 ^ l := by
  have hexponent : (l : ℤ).bmod (2 ^ 32) = l := by
    rw [Int.bmod_def]
    omega
  rw [trialLength_eq_zpow, hexponent, zpow_natCast]

theorem trialLength_zero (alphaMax : K) : trialLength alphaMax 0 = alphaMax := by
  rw [trialLength_eq alphaMax (Nat.two_pow_pos 31), pow_zero, div_one]

theorem trialLength_le (h : 0 < alphaMax) {l : ℕ} (hl : l < 2 ^ 31) :
    trialLength alphaMax l ≤ alphaMax := by
  rw [trialLength_eq alphaMax hl]
  exact div_le_self h.le (one_le_pow₀ one_le_two)

/-- …and no longer: the next `2 ^ 31` trials are all longer than the first one. -/
theorem lt_trialLength (h : 0 < alphaMax) {l : ℕ} (hl : 2 ^ 31 ≤ l) (hl' : l < 2 ^ 32) :
    alphaMax < trialLength alphaMax l := by
  have hexponent : (l : ℤ).bmod (2 ^ 32) = l - 2 ^ 32 := by
    rw [Int.bmod_def]
    omega
  have hneg : (l : ℤ) - 2 ^ 32 < 0 := by omega
  rw [trialLength_eq_zpow, hexponent, lt_div_iff₀ (zpow_pos two_pos _)]
  exact mul_lt_of_lt_one_right h (zpow_lt_one_of_neg₀ one_lt_two hneg)

/-- A search ends at a length that it has tried, or at the one before the first. -/
theorem length_of_backtrack {start : Measures K} :
    ∀ {left l : ℕ} {last : K} {found : Outcome K},
      (ls.backtrack x s d alphaMax mu start left l last).result = .ok found →
      found.length = last ∨ ∃ k < l + left, found.length = trialLength alphaMax k
  | 0, _, last, found, hfound => by
    obtain rfl := Except.ok.inj hfound
    exact .inl rfl
  | left + 1, l, last, found, hfound => by
    simp only [backtrack, Traced.result_bind, except_bind_eq_ok, Traced.result_liftM,
      Traced.result_note] at hfound
    obtain ⟨m, _, _, _, hfound⟩ := hfound
    split at hfound
    · obtain rfl := Except.ok.inj hfound
      exact .inr ⟨l, by omega, rfl⟩
    · obtain hlast | ⟨k, hk, hlength⟩ := length_of_backtrack hfound
      · exact .inr ⟨l, by omega, hlast⟩
      · exact .inr ⟨k, by omega, hlength⟩

/-- **A search ends at the longest admissible length or at one that it has tried.** -/
theorem length_of_search {found : Outcome K}
    (hfound : (ls.search x s d alphaMax mu).result = .ok found) :
    found.length = alphaMax ∨ ∃ l < ls.maxBacktracks, found.length = trialLength alphaMax l := by
  simp only [search, Traced.result_bind, except_bind_eq_ok, Traced.result_liftM] at hfound
  obtain ⟨_, _, hfound⟩ := hfound
  rw [← Nat.zero_add ls.maxBacktracks]
  exact length_of_backtrack hfound

/-- It is positive. -/
theorem length_pos_of_search {found : Outcome K} (h : 0 < alphaMax)
    (hfound : (ls.search x s d alphaMax mu).result = .ok found) : 0 < found.length := by
  obtain hlength | ⟨l, _, hlength⟩ := length_of_search hfound
  · exact hlength ▸ h
  · exact hlength ▸ trialLength_pos h l

/-- It is not longer than the longest admissible one, if all trials have their numbers for
exponents. -/
theorem length_le_of_search {found : Outcome K} (h : 0 < alphaMax)
    (hcount : ls.maxBacktracks ≤ 2 ^ 31)
    (hfound : (ls.search x s d alphaMax mu).result = .ok found) : found.length ≤ alphaMax := by
  obtain hlength | ⟨l, hl, hlength⟩ := length_of_search hfound
  · exact hlength.le
  · exact hlength ▸ trialLength_le h (hl.trans_le hcount)

/-- **A first trial that takes enough off the violation ends the search.** -/
theorem accepted_of_search {x' s' : Matrix K} {theta theta' : K} {found : Outcome K}
    (hcount : 0 < ls.maxBacktracks) (hx' : x.add (d.dx.scale alphaMax) = .ok x')
    (hs' : s.add (d.ds.scale alphaMax) = .ok s') (htheta : ls.violation x s = .ok theta)
    (htheta' : ls.violation x' s' = .ok theta') (hle : theta' ≤ (1 - ls.gammaTheta) * theta)
    (hfound : (ls.search x s d alphaMax mu).result = .ok found) : found = .accepted alphaMax := by
  obtain ⟨left, hleft⟩ := Nat.exists_eq_add_one.mpr hcount
  simp only [search, hleft, backtrack, trialLength_zero, trial, measure, hx', hs', htheta, htheta',
    ok_bind, Traced.result_bind, except_bind_eq_ok, Traced.result_liftM, Traced.result_note,
    bind_eq_ok, pure_eq_ok] at hfound
  obtain ⟨_, ⟨phi, _, rfl⟩, _, ⟨phi', _, rfl⟩, _, _, hfound⟩ := hfound
  have haccepts : ls.Accepts ⟨theta, phi⟩ ⟨theta', phi'⟩ := .inl hle
  rw [if_pos haccepts] at hfound
  exact (Except.ok.inj hfound).symm

end LineSearch

end InteriorPoint
