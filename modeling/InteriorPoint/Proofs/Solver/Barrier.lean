import Mathlib
import InteriorPoint.Proofs.Barrier
import InteriorPoint.Proofs.Solver.Progress
import InteriorPoint.Proofs.Solver.Stream

/-!
# Proofs/Solver/Barrier — the barrier parameters of a run

A record names the barrier parameter of the iterate that it reports on, and a Newton step takes that
parameter where the descent from it comes to rest.  So the parameters of the records of a run go
down, and not below the floor, whatever the functions of the program do between two calls.

* `Falling` — what this says of a list of records; `Descending` carries it from call to call.
* `barrier_descends` — every descent of validated options comes to rest, and the records of every
  run are falling.
-/

namespace InteriorPoint.Solver

/-! ## One call -/

section Call

variable {α : Type} [Scalar α] {s t : Solver α} {record : Record α}
  {result : Except (Error α) (Record α)}

/-- A terminal record, once given, names the barrier parameter of the iterate. -/
def NamesMu (s : Solver α) : Prop :=
  ∀ record hterminal, s.phase = .finished record hterminal → record.mu = s.iterate.mu

theorem Examines.mu_eq (h : Examines s (.ok record) t) : record.mu = t.iterate.mu := by
  cases h <;> rfl

theorem Examines.namesMu (h : Examines s result t) : NamesMu t := by
  intro record hterminal hphase
  cases h <;> cases hphase <;> rfl

/-- **Every record names the barrier parameter of the iterate.** -/
theorem Steps.mu_eq (hs : NamesMu s) (h : Steps s (.ok record) t) : record.mu = t.iterate.mu := by
  cases h with
  | finished hphase => exact hs _ _ hphase
  | examined hphase hexamine => exact hexamine.mu_eq
  | advanced hphase hadvance hexamine => exact hexamine.mu_eq

theorem Steps.namesMu (hs : NamesMu s) (h : Steps s result t) : NamesMu t := by
  cases h with
  | finished hphase => exact hs
  | examined hphase hexamine => exact hexamine.namesMu
  | refused hphase hadvance => exact hs
  | advanced hphase hadvance hexamine => exact hexamine.namesMu

/-- A call leaves the barrier parameter as it is, or takes it where a descent ends. -/
theorem Steps.mu_cases (h : Steps s result t) :
    t.iterate.mu = s.iterate.mu ∨
      ∃ r, t.iterate.mu = (Barrier.ofOptions s.options).update r s.iterate.mu := by
  obtain heq | ⟨e, r, next, _, hadvance⟩ := h.iterate_cases
  · exact .inl (congrArg Iterate.mu heq)
  · exact .inr ⟨r, (advance_eq_ok hadvance).1⟩

/-- While the functions of the program stay what they are, steps are steps. -/
theorem evolve_program (s : Solver α) (n : ℕ) :
    s.evolve (fun _ => s.program) n = s.after n ∧ (s.after n).program = s.program := by
  induction n with
  | zero => exact ⟨rfl, rfl⟩
  | succ n ih =>
    obtain ⟨heq, hprogram⟩ := ih
    have hstill : (s.after n).under s.program = s.after n := by
      rw [under, ← hprogram]
    have hafter : s.after (n + 1) = (s.after n).step.2 := after_add n 1 s
    rw [evolve, heq, hstill, hafter]
    exact ⟨rfl, (s.after n).steps.settings.1.trans hprogram⟩

theorem filterMap_results (s : Solver α) (n : ℕ) :
    (s.results n).filterMap Except.toOption = s.records (fun _ => s.program) n := by
  induction n with
  | zero => rfl
  | succ n ih =>
    obtain ⟨heq, hprogram⟩ := s.evolve_program n
    have hreturned : s.returned (fun _ => s.program) n = (s.after n).step.1.result := by
      rw [returned, heq, under, ← hprogram]
    rw [results_add, List.filterMap_append, ih, records_succ, hreturned]
    simp only [results, List.filterMap_cons, List.filterMap_nil]
    cases (s.after n).step.1.result <;> rfl

end Call

/-! ## Every number of calls -/

variable {K : Type} [ExactScalar K] {s t : Solver K} {o : Options K} {earlier : List (Record K)}

/-- **Records whose barrier parameters go down**, but not below the floor if the first one was not
set there. -/
def Falling (o : Options K) (records : List (Record K)) : Prop :=
  (records.map Record.mu).Pairwise (· ≥ ·) ∧
    ∀ record ∈ records, min o.muInitial (o.globalTolerance / 10) ≤ record.mu

/-- **A run whose barrier parameter goes down**, after the records `earlier`. -/
structure Descending (o : Options K) (earlier : List (Record K)) (s : Solver K) : Prop where
  options : s.options = o
  namesMu : NamesMu s
  falling : Falling o earlier
  above : ∀ record ∈ earlier, s.iterate.mu ≤ record.mu
  floor : min o.muInitial (o.globalTolerance / 10) ≤ s.iterate.mu

theorem Descending.under (h : Descending o earlier s) (p : Program K) :
    Descending o earlier (s.under p) :=
  ⟨h.options, h.namesMu, h.falling, h.above, h.floor⟩

/-- A call takes the barrier parameter down, but not below the floor. -/
theorem Steps.mu_mem_Icc {result : Except (Error K) (Record K)} (h : Steps s result t) :
    t.iterate.mu ∈ Set.Icc (min s.iterate.mu (s.options.globalTolerance / 10)) s.iterate.mu := by
  rw [← Barrier.floor_ofOptions]
  obtain heq | ⟨r, heq⟩ := h.mu_cases
  · rw [heq]
    exact ⟨min_le_left _ _, le_rfl⟩
  · rw [heq]
    exact Barrier.descend_mem_Icc _ r _ _

/-- A parameter below those of the earlier records goes on with them. -/
theorem Falling.append (h : Falling o earlier) {record : Record K}
    (habove : ∀ r ∈ earlier, record.mu ≤ r.mu)
    (hfloor : min o.muInitial (o.globalTolerance / 10) ≤ record.mu) :
    Falling o (earlier ++ [record]) := by
  constructor
  · rw [List.map_append, List.pairwise_append]
    refine ⟨h.1, List.pairwise_singleton _ _, ?_⟩
    simpa using habove
  · rw [List.forall_mem_append]
    exact ⟨h.2, by simpa using hfloor⟩

/-- **A call keeps the run going down.** -/
theorem Descending.step {result : Except (Error K) (Record K)} (hs : Descending o earlier s)
    (h : Steps s result t) : Descending o (earlier ++ result.toOption.toList) t := by
  obtain ⟨hlow, hdown⟩ := h.mu_mem_Icc
  rw [hs.options] at hlow
  have hfloor : min o.muInitial (o.globalTolerance / 10) ≤ t.iterate.mu :=
    (le_min hs.floor (min_le_right _ _)).trans hlow
  have habove : ∀ record ∈ earlier, t.iterate.mu ≤ record.mu :=
    fun record hrecord => hdown.trans (hs.above record hrecord)
  refine ⟨h.settings.2.trans hs.options, h.namesMu hs.namesMu, ?_, ?_, hfloor⟩
  all_goals rcases result with err | record
  · exact (List.append_nil earlier).symm ▸ hs.falling
  · have hmu := h.mu_eq hs.namesMu
    exact hs.falling.append (hmu ▸ habove) (hmu ▸ hfloor)
  · exact (List.append_nil earlier).symm ▸ habove
  · exact List.forall_mem_append.mpr
      ⟨habove, List.forall_mem_singleton.mpr (h.mu_eq hs.namesMu).ge⟩

/-- **A run goes down from its beginning**, whatever the functions of the program do between two
calls. -/
theorem Begins.descending {p : Program K} {x : Matrix K} (h : Begins p o x s)
    (programs : ℕ → Program K) (k : ℕ) :
    Descending o (s.records programs k) (s.evolve programs k) := by
  induction k with
  | zero =>
    obtain ⟨size, _, rfl⟩ := h.exists_start
    exact ⟨rfl, fun _ _ => nofun, ⟨List.Pairwise.nil, nofun⟩, nofun, min_le_left _ _⟩
  | succ k ih =>
    rw [records_succ]
    exact (ih.under (programs k)).step (s.steps_evolve programs k)

/-- **The barrier parameter.**  Where no scalar is infinitely large, every descent of validated
options from a positive parameter comes to rest, at the first place where the barrier problem is not
solved or a decrease does not go down, and `Descent` says what that place is like.  So the records
of a run are falling: those of steps between which the functions of the program may change, and
those that calls of any sort deliver. -/
theorem barrier_descends [Archimedean K] [LawfulDescents K] (ho : o.validate = .ok ()) :
    (Barrier.ofOptions o).floor = o.globalTolerance / 10 ∧
    (∀ (r : Residual K) (mu : K), 0 < mu →
      (Barrier.ofOptions o).Descent r mu ((Barrier.ofOptions o).update r mu)) ∧
    ∀ p x s, Begins p o x s →
      (∀ programs k, Falling o (s.records programs k)) ∧
      ∀ cs : List (Call K), (∀ c ∈ cs, c.Continues) →
        Falling o ((s.delivery cs).filterMap Except.toOption) := by
  obtain ⟨hratio, hfloor⟩ := Barrier.linearFactor_ofOptions ho
  refine ⟨Barrier.floor_ofOptions o, fun r mu hmu => Barrier.descent hratio hfloor r hmu, ?_⟩
  intro p x s h
  refine ⟨fun programs k => (h.descending programs k).falling, fun cs hcs => ?_⟩
  obtain ⟨n, hdelivery, _⟩ := calls_deliver hcs s
  rw [hdelivery, filterMap_results]
  exact (h.descending _ n).falling

/-- The residual of an iterate with one product of slack and multiplier, and nothing else left. -/
def productResidual (sz : ℚ) : Residual ℚ where
  stationarity := Matrix.zeros 0 1
  complementarity := Matrix.column #[sz]
  equality := Matrix.zeros 0 1
  inequality := Matrix.zeros 0 1

/-- From a tenth the descent takes nine rounds, to the first parameter that is too small for the
product; and the records of a run with default options are falling, also if one of its two lines
turns between the steps. -/
theorem barrier_descends_product : (Options.default : Options ℚ).validate = .ok () ∧
    (Barrier.ofOptions Options.default).update (productResidual (1 / 1000)) (1 / 10) =
      1 / 19531250 ∧
    (Barrier.ofOptions Options.default).Descent (productResidual (1 / 1000)) (1 / 10)
      (1 / 19531250) ∧
    Falling Options.default
      ((start (linesProgram 0) .default ⟨2, [(.equality, 2), (.inequality, 2)]⟩
        (linesProgram 0).initialGuess).records (fun k => linesProgram k) 3) := by
  have hvalid : (Options.default : Options ℚ).validate = .ok () := Options.validate_default
  have hupdate : (Barrier.ofOptions Options.default).update (productResidual (1 / 1000)) (1 / 10) =
      1 / 19531250 := by decide +kernel
  obtain ⟨_, hdescent, hruns⟩ := barrier_descends hvalid
  refine ⟨hvalid, hupdate, hupdate ▸ hdescent _ _ (by norm_num), ?_⟩
  have hcreate : create (linesProgram 0) (linesProgram 0).initialGuess Options.default =
      .ok (start (linesProgram 0) .default ⟨2, [(.equality, 2), (.inequality, 2)]⟩
        (linesProgram 0).initialGuess) := by
    rw [create, hvalid, ok_bind]
    rfl
  exact (hruns _ _ _ (.inl hcreate)).1 _ 3

end InteriorPoint.Solver
