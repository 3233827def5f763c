import Mathlib
import InteriorPoint.Barrier
import InteriorPoint.Proofs.Boundary
import InteriorPoint.Proofs.Dual
import InteriorPoint.Proofs.Options

/-!
# Proofs/Barrier — where the barrier parameter comes to rest

A descent goes through `mu`, `decrease mu`, `decrease (decrease mu)`, … until it *rests*: the
barrier problem is not solved there, or a decrease would not make the parameter smaller.  Whether it
is solved follows no order — the error and what is allowed of it both move with the parameter — so
nothing but the linear factor brings a descent to an end, and nothing but the floor keeps it up.

* `descend_eq_iterate` — in any arithmetic, with rounds enough the result is the first place of
  rest.
* `exists_isLeast_rests` — over exact scalars without infinite ones there is such a place, within
  the rounds of `update`.
* `Descent` — what the result of a descent is; `descent` proves it of validated options.
-/

namespace InteriorPoint

/-- **A bound on descents that is one**, if any number of rounds leads to the floor. -/
class LawfulDescents (K : Type) [ExactScalar K] : Prop where
  enough {ratio start floor : K} {n : ℕ} : 0 < ratio ∧ ratio < 1 → 0 < floor →
    ratio ^ n * start ≤ floor → ratio ^ Scalar.descentBound ratio start floor * start ≤ floor

instance : LawfulDescents ℚ where
  enough hratio hfloor _ := ExactScalar.pow_descentRounds_mul_le _ hratio hfloor

instance : LawfulDescents ℝ where
  enough hratio hfloor _ := ExactScalar.pow_descentRounds_mul_le _ hratio hfloor

namespace Barrier

/-! ## Rounds -/

section Rounds

variable {α : Type} [Scalar α] {b : Barrier α} {r : Residual α} {mu : α}

/-- **Where a descent rests**: the barrier problem is not solved, or a decrease does not make the
parameter smaller. -/
def Rests (b : Barrier α) (r : Residual α) (mu : α) : Prop :=
  b.isSolved r mu = false ∨ mu ≤ b.decrease mu

theorem descend_of_rests (h : b.Rests r mu) (rounds : ℕ) : b.descend r mu rounds = mu := by
  cases rounds with
  | zero => rfl
  | succ rounds =>
    rw [descend]
    obtain hopen | hstuck := h
    · rw [hopen, if_neg Bool.false_ne_true]
    · rw [if_pos hstuck, ite_self]

theorem descend_succ (h : ¬b.Rests r mu) (rounds : ℕ) :
    b.descend r mu (rounds + 1) = b.descend r (b.decrease mu) rounds := by
  obtain ⟨hsolved, hdown⟩ := not_or.mp h
  rw [descend, if_pos (Bool.of_not_eq_false hsolved), if_neg hdown]

/-- After a round that does not rest, the first place of rest is one round nearer. -/
theorem isLeast_rests_succ {n : ℕ} (h : IsLeast {k | b.Rests r (b.decrease^[k] mu)} (n + 1)) :
    ¬b.Rests r mu ∧ IsLeast {k | b.Rests r (b.decrease^[k] (b.decrease mu))} n := by
  refine ⟨fun hrests => ?_, h.1, fun k hk => ?_⟩
  · exact absurd (h.2 (show 0 ∈ {k | b.Rests r (b.decrease^[k] mu)} from hrests)) (by omega)
  · exact Nat.succ_le_succ_iff.mp (h.2 (show k + 1 ∈ {k | b.Rests r (b.decrease^[k] mu)} from hk))

/-- **With rounds enough a descent ends at the first place of rest.** -/
theorem descend_eq_iterate {n rounds : ℕ}
    (h : IsLeast {k | b.Rests r (b.decrease^[k] mu)} n) (hn : n ≤ rounds) :
    b.descend r mu rounds = b.decrease^[n] mu := by
  induction n generalizing mu rounds with
  | zero => exact descend_of_rests h.1 rounds
  | succ n ih =>
    obtain ⟨hmoves, hrest⟩ := isLeast_rests_succ h
    obtain ⟨rounds, rfl⟩ := Nat.exists_eq_add_of_le' (Nat.zero_lt_of_lt hn)
    rw [descend_succ hmoves, ih hrest (Nat.succ_le_succ_iff.mp hn), Function.iterate_succ_apply]

end Rounds

/-! ## Exact arithmetic -/

section Exact

variable {K : Type} [ExactScalar K] {b : Barrier K} {r : Residual K} {mu : K}

theorem decrease_eq (b : Barrier K) (mu : K) :
    b.decrease mu = max b.floor (min (b.linearFactor * mu) (Scalar.pow mu b.power)) := by
  rw [decrease, scalarMax_eq, scalarMin_eq]

theorem floor_le_decrease (b : Barrier K) (mu : K) : b.floor ≤ b.decrease mu :=
  decrease_eq b mu ▸ le_max_left _ _

theorem decrease_le (b : Barrier K) (mu : K) :
    b.decrease mu ≤ max b.floor (b.linearFactor * mu) :=
  decrease_eq b mu ▸ max_le_max_left _ (min_le_left _ _)

/-- At the floor and below it every descent rests. -/
theorem rests_of_le_floor (h : mu ≤ b.floor) : b.Rests r mu :=
  .inr (h.trans (b.floor_le_decrease mu))

/-- **A descent goes down**, but not below the floor if it has not begun there. -/
theorem descend_mem_Icc (b : Barrier K) (r : Residual K) (mu : K) (rounds : ℕ) :
    b.descend r mu rounds ∈ Set.Icc (min mu b.floor) mu := by
  induction rounds generalizing mu with
  | zero => exact ⟨min_le_left _ _, le_rfl⟩
  | succ rounds ih =>
    by_cases hrests : b.Rests r mu
    · rw [descend_of_rests hrests]
      exact ⟨min_le_left _ _, le_rfl⟩
    · have hdown : b.decrease mu < mu := not_le.mp (not_or.mp hrests).2
      obtain ⟨hlow, hhigh⟩ := ih (b.decrease mu)
      rw [min_eq_right (b.floor_le_decrease mu)] at hlow
      rw [descend_succ hrests]
      exact ⟨(min_le_right _ _).trans hlow, hhigh.trans hdown.le⟩

/-- The linear factor brings every sequence of decreases down. -/
theorem iterate_decrease_le (hratio : 0 < b.linearFactor ∧ b.linearFactor < 1)
    (hfloor : 0 < b.floor) (mu : K) (n : ℕ) : b.decrease^[n] mu ≤ max b.floor (b.linearFactor ^ n * mu) := by
  induction n with
  | zero => simp
  | succ n ih =>
    rw [Function.iterate_succ_apply']
    refine (b.decrease_le _).trans (max_le (le_max_left _ _) ?_)
    calc b.linearFactor * b.decrease^[n] mu
        ≤ b.linearFactor * max b.floor (b.linearFactor ^ n * mu) :=
          mul_le_mul_of_nonneg_left ih hratio.1.le
      _ = max (b.linearFactor * b.floor) (b.linearFactor ^ (n + 1) * mu) := by
          rw [mul_max_of_nonneg _ _ hratio.1.le, ← mul_assoc, ← pow_succ']
      _ ≤ max b.floor (b.linearFactor ^ (n + 1) * mu) :=
          max_le_max_right _ (mul_le_of_le_one_left hfloor.le hratio.2.le)

/-- **Every descent comes to rest**, within the rounds of `update`. -/
theorem exists_isLeast_rests [Archimedean K] [LawfulDescents K]
    (hratio : 0 < b.linearFactor ∧ b.linearFactor < 1) (hfloor : 0 < b.floor) (r : Residual K)
    (mu : K) :
    ∃ n ≤ Scalar.descentBound b.linearFactor mu b.floor,
      IsLeast {k | b.Rests r (b.decrease^[k] mu)} n := by
  have hdown : ∃ n : ℕ, b.linearFactor ^ n * mu ≤ b.floor := by
    obtain hmu | hmu := le_or_gt mu 0
    · exact ⟨0, by simpa using hmu.trans hfloor.le⟩
    · obtain ⟨n, hn⟩ := exists_pow_lt_of_lt_one (div_pos hfloor hmu) hratio.2
      exact ⟨n, ((lt_div_iff₀ hmu).mp hn).le⟩
  obtain ⟨n, hn⟩ := hdown
  have hbound := LawfulDescents.enough hratio hfloor hn
  have hrests : Scalar.descentBound b.linearFactor mu b.floor ∈
      {k | b.Rests r (b.decrease^[k] mu)} := by
    refine rests_of_le_floor ((iterate_decrease_le hratio hfloor mu _).trans ?_)
    rw [max_eq_left hbound]
  classical
  exact ⟨_, Nat.find_min' ⟨_, hrests⟩ hrests, Nat.find_spec ⟨_, hrests⟩,
    fun k hk => Nat.find_min' ⟨_, hrests⟩ hk⟩

/-- **The result of a descent** from `mu`. -/
structure Descent (b : Barrier K) (r : Residual K) (mu result : K) : Prop where
  /-- It is the first place of rest, and rounds beyond that make no difference. -/
  first : ∃ n, IsLeast {k | b.Rests r (b.decrease^[k] mu)} n ∧ result = b.decrease^[n] mu ∧
    ∀ rounds ≥ n, b.descend r mu rounds = result
  mem_Icc : result ∈ Set.Icc (min mu b.floor) mu
  pos : 0 < result
  /-- A parameter that is not above the floor stays as it is. -/
  unchanged : mu ≤ b.floor → result = mu
  /-- For the same residual it is final. -/
  again : b.update r result = result

/-- **A barrier parameter goes down to a place of rest.** -/
theorem descent [Archimedean K] [LawfulDescents K]
    (hratio : 0 < b.linearFactor ∧ b.linearFactor < 1) (hfloor : 0 < b.floor) (r : Residual K)
    (hmu : 0 < mu) : b.Descent r mu (b.update r mu) := by
  obtain ⟨n, hn, hleast⟩ := exists_isLeast_rests hratio hfloor r mu
  have hupdate : b.update r mu = b.decrease^[n] mu := descend_eq_iterate hleast hn
  have hbounds : b.update r mu ∈ Set.Icc (min mu b.floor) mu := b.descend_mem_Icc r mu _
  refine ⟨⟨n, hleast, hupdate, fun rounds hrounds => ?_⟩, hbounds,
    (lt_min hmu hfloor).trans_le hbounds.1, fun hlow => ?_, ?_⟩
  · rw [descend_eq_iterate hleast hrounds, hupdate]
  · exact descend_of_rests (rests_of_le_floor hlow) _
  · rw [hupdate]
    exact descend_of_rests hleast.1 _

theorem floor_ofOptions (o : Options K) : (ofOptions o).floor = o.globalTolerance / 10 := by
  rw [ofOptions]
  norm_num

/-- The rule of validated options has a factor below one and a positive floor. -/
theorem linearFactor_ofOptions {o : Options K} (ho : o.validate = .ok ()) :
    (0 < (ofOptions o).linearFactor ∧ (ofOptions o).linearFactor < 1) ∧
      0 < (ofOptions o).floor := by
  refine ⟨Options.inRange_of_validate ho .linearDecreaseFactor rfl, ?_⟩
  have htolerance : 0 < o.globalTolerance := Options.inRange_of_validate ho .globalTolerance rfl
  rw [floor_ofOptions]
  exact div_pos htolerance (by norm_num)

end Exact

end Barrier

end InteriorPoint
