import Mathlib
import InteriorPoint.Proofs.Solver.Stream

/-!
# Proofs/Solver/Drivers — one stream of records, whoever asks for it

Single steps, items of the stream and driven runs share one machine, so calls in any order deliver
the results of steps one after the other (`calls_deliver`), and a run that was stopped goes on where
it was.  The pending records among them have consecutive numbers (`numbers_results`).

Within a driven run, `Drives` says what the hooks are given: the judge sees the pending records
(`Drives.judged_eq`), a history keeps all of them (`Drives.history`), and the verdict is that of the
last record unless the judge has spoken (`Drives.verdict_iff`).
-/

namespace InteriorPoint

variable {α σ : Type}

/-- The verdict of a driven run that a record brings to its end. -/
def Progress.verdict : Progress → Option Verdict
  | .pending => none
  | .success => some .optimal
  | .failed => some .iterationLimit

theorem Progress.verdict_eq_optimal {progress : Progress} :
    progress.verdict = some .optimal ↔ progress = .success := by
  cases progress <;> simp [verdict]

theorem Progress.verdict_eq_iterationLimit {progress : Progress} :
    progress.verdict = some .iterationLimit ↔ progress = .failed := by
  cases progress <;> simp [verdict]

/-- **Hooks whose state holds an observer of the library**, which is shown every record and which the
judge leaves alone. -/
structure Hooks.Shows (hooks : Hooks σ α) (observer : σ → Observer α) : Prop where
  begin : ∀ st, observer (hooks.begin st) = (observer st).begin
  observe : ∀ record st, observer (hooks.observe record st).2 = ((observer st).observe record).2
  judge : ∀ record st, observer (hooks.judge record st).2 = observer st

/-- **Hooks whose judge is a stop condition of the library**, at whatever time it is asked and
whether or not the run was interrupted by then. -/
def Hooks.UsesStopper (hooks : Hooks σ α) : Prop :=
  ∀ record st, ∃ (elapsed : ℕ) (stopper : Stopper), (hooks.judge record st).1 = stopper.judge elapsed

/-- **A stop condition has no word on how far the method has come.** -/
theorem Stopper.judge_cases (elapsed : ℕ) (t : Stopper) {verdict : Verdict}
    (h : t.judge elapsed = some verdict) : verdict = .interrupted ∨ verdict = .timeLimit := by
  fun_induction Stopper.judge elapsed t with
  | case1 => cases h
  | case2 => exact .inr (Option.some.inj h).symm
  | case3 => cases h
  | case4 => exact .inl (Option.some.inj h).symm
  | case5 => cases h
  | case6 => cases h
  | case7 t ts iht ihts =>
    obtain h | ⟨_, h⟩ := Option.or_eq_some_iff.mp h
    · exact iht h
    · exact ihts h

theorem Hooks.shows_standard (clock : Record α → ℕ) (stopper : Stopper) :
    (Hooks.standard clock stopper).Shows id :=
  ⟨fun _ => rfl, fun _ _ => rfl, fun _ _ => rfl⟩

theorem Hooks.usesStopper_standard (clock : Record α → ℕ) (stopper : Stopper) :
    (Hooks.standard clock stopper).UsesStopper :=
  fun record _ => ⟨clock record, stopper, rfl⟩

namespace Solver

variable [Scalar α] {s t : Solver α}

/-! ## Driven runs -/

section Driven

variable {hooks : Hooks σ α} {st : σ} {log : Log α} {d : Driven σ α}

/-- **The judge is asked after every pending record, and after no other.** -/
theorem Drives.judged_eq (h : Drives hooks st s log d) :
    log.judged = log.shown.filter fun record => record.progress = .pending := by
  induction h with
  | broken hresult => rfl
  | optimal hresult hprogress => simp [hprogress]
  | exhausted hresult hprogress => simp [hprogress]
  | stopped hresult hprogress hjudge => simp [hprogress]
  | continued hresult hprogress hjudge _ ih => simp [hprogress, ih]

/-- **A history keeps every record that it is shown**, the last one first. -/
theorem Drives.history (h : Drives hooks st s log d) {observer : σ → Observer α}
    (hshows : hooks.Shows observer) {kept : List (Record α)} (hst : observer st = .history kept) :
    observer d.hooks = .history (log.shown.reverse ++ kept) := by
  have hshown {st : σ} {kept : List (Record α)} (record : Record α)
      (hst : observer st = .history kept) :
      observer (hooks.observe record st).2 = .history (record :: kept) := by
    rw [hshows.observe, hst]
    rfl
  induction h generalizing kept with
  | broken hresult => exact hst
  | optimal hresult hprogress => exact hshown _ hst
  | exhausted hresult hprogress => exact hshown _ hst
  | stopped hresult hprogress hjudge => exact (hshows.judge _ _).trans (hshown _ hst)
  | continued hresult hprogress hjudge _ ih =>
    rw [ih ((hshows.judge _ _).trans (hshown _ hst)), List.reverse_cons, List.append_assoc]
    rfl

/-- **A verdict that the judge never gives is that of the last record.** -/
theorem Drives.verdict_iff (h : Drives hooks st s log d) {verdict : Verdict}
    (hjudge : ∀ record st, (hooks.judge record st).1 ≠ some verdict) :
    d.verdict = .ok verdict ↔
      ∃ record ∈ log.shown.getLast?, record.progress.verdict = some verdict := by
  induction h with
  | broken hresult => simp
  | optimal hresult hprogress => simp [hprogress, Progress.verdict]
  | exhausted hresult hprogress => simp [hprogress, Progress.verdict]
  | @stopped st s record verdict' hresult hprogress hstop =>
    have hne : verdict' ≠ verdict := by
      rintro rfl
      exact hjudge _ _ hstop
    simp [hprogress, Progress.verdict, hne]
  | @continued st s record log rest hresult hprogress _ _ ih =>
    rw [ih, List.getLast?_cons]
    rcases log.shown.getLast? with _ | last
    · simp [hprogress, Progress.verdict]
    · simp

end Driven

/-! ## The numbers of the pending records -/

/-- The numbers of the pending records among results. -/
def numbers (results : List (Except (Error α) (Record α))) : List ℕ :=
  ((results.filterMap Except.toOption).filter fun record => record.progress = .pending).map
    Record.iteration

/-- Once a run is over, steps give the terminal record. -/
theorem results_of_finished {record : Record α} {hterminal : record.progress ≠ .pending}
    (h : s.phase = .finished record hterminal) (n : ℕ) :
    s.results n = List.replicate n (.ok record) := by
  induction n with
  | zero => rfl
  | succ n ih =>
    rw [results, step_of_finished h, ih]
    rfl

/-- A look at the iterate numbers a pending record by the steps taken, and the next one is due. -/
theorem Examines.upcoming_of_pending {record : Record α} (h : Examines s (.ok record) t)
    (hpending : record.progress = .pending) :
    record.iteration = s.iterations ∧ t.upcoming = s.iterations + 1 := by
  cases h with
  | exhausted hmax => cases hpending
  | converged hmax hassess hopt => cases hpending
  | pending hmax hassess hopt => exact ⟨rfl, rfl⟩

/-- **A pending record has the number that is due, and the next number is due after it.** -/
theorem Steps.upcoming_of_pending {record : Record α} (h : Steps s (.ok record) t)
    (hpending : record.progress = .pending) :
    record.iteration = s.upcoming ∧ t.upcoming = s.upcoming + 1 := by
  cases h with
  | @finished _ terminal hphase => exact absurd hpending terminal
  | examined hphase hexamine =>
    have hupcoming : s.upcoming = s.iterations := by simp only [upcoming, hphase]
    exact hupcoming ▸ hexamine.upcoming_of_pending hpending
  | advanced hphase hadvance hexamine =>
    have hupcoming : s.upcoming = s.iterations + 1 := by simp only [upcoming, hphase]
    exact hupcoming ▸ hexamine.upcoming_of_pending hpending

theorem Steps.finished_of_terminal {record : Record α} (h : Steps s (.ok record) t)
    (hterminal : record.progress ≠ .pending) : t.phase = .finished record hterminal := by
  cases h with
  | finished hphase => exact hphase
  | examined hphase hexamine => exact hexamine.finished_of_terminal hterminal
  | advanced hphase hadvance hexamine => exact hexamine.finished_of_terminal hterminal

/-- **The pending records of a run have consecutive numbers**: none is missing, and none comes
twice. -/
theorem Settled.numbers_results (hs : Settled s) (n : ℕ) :
    ∃ m, numbers (s.results n) = List.range' s.upcoming m := by
  induction n generalizing s with
  | zero => exact ⟨0, rfl⟩
  | succ n ih =>
    have hsteps := s.steps
    rw [results]
    rcases hresult : s.step.1.result with err | record
    · rw [hresult] at hsteps
      rw [hsteps.eq_of_error hs]
      exact ih hs
    · rw [hresult] at hsteps
      by_cases hpending : record.progress = .pending
      · obtain ⟨m, hm⟩ := ih (hsteps.settled hs)
        obtain ⟨hnumber, hnext⟩ := hsteps.upcoming_of_pending hpending
        refine ⟨m + 1, ?_⟩
        rw [List.range'_succ, ← hnext, ← hm, ← hnumber]
        simp [numbers, Except.toOption, hpending]
      · refine ⟨0, ?_⟩
        rw [results_of_finished (hsteps.finished_of_terminal hpending), ← List.replicate_succ]
        simp [numbers, Except.toOption, hpending]

/-! ## All drivers -/

/-- **The drivers deliver one and the same stream.**  Calls in any order, from any reachable solver
and without a restart, deliver the results of as many steps and leave the solver where these leave
it, but for the end of the stream, which an item of the stream may have brought; no pending record
is lost or comes twice.  In a driven run the hooks are given what the log says, which changes
nothing: the judge is asked about the pending records, a history holds all records in order, and the
run is optimal or out of iterations exactly if its last record says so, where the judge is a stop
condition of the library. -/
theorem drivers_agree {p : Program α} {o : Options α} (h : Reachable p o s) (cs : List (Call α))
    (hcs : ∀ c ∈ cs, c.Continues) :
    s.delivery cs = s.results (s.delivery cs).length ∧
    (s.calls cs).2 = (s.after (s.delivery cs).length).mark
      (s.ended || (s.calls cs).1.any Answer.endsStream) ∧
    (∃ m, numbers (s.delivery cs) = List.range' s.upcoming m) ∧
    ∀ (σ : Type) (hooks : Hooks σ α) (st : σ),
      s.solve hooks.logged (⟨[], []⟩, st) =
        ⟨(s.solve hooks st).events, (s.solve hooks st).verdict,
          (s.log hooks st, (s.solve hooks st).hooks), (s.solve hooks st).solver⟩ ∧
      (s.log hooks st).judged =
        (s.log hooks st).shown.filter (fun record => record.progress = .pending) ∧
      (∀ observer : σ → Observer α, hooks.Shows observer → ∀ kept, observer st = .history kept →
        (observer (s.solve hooks st).hooks).records = some (s.log hooks st).shown) ∧
      (hooks.UsesStopper →
        ((s.solve hooks st).verdict = .ok .optimal ↔
          ∃ record ∈ (s.log hooks st).shown.getLast?, record.progress = .success) ∧
        ((s.solve hooks st).verdict = .ok .iterationLimit ↔
          ∃ record ∈ (s.log hooks st).shown.getLast?, record.progress = .failed)) := by
  obtain ⟨_, _, _, hs⟩ := h.settled
  obtain ⟨n, hresults, hsolver⟩ := calls_deliver hcs s
  have hn : (s.delivery cs).length = n := by rw [hresults, length_results]
  rw [hn]
  refine ⟨hresults, hsolver, hresults ▸ hs.numbers_results n, ?_⟩
  intro σ hooks st
  have hdrives := drives hooks st s
  refine ⟨solve_logged hooks st s, hdrives.judged_eq, ?_, ?_⟩
  · intro observer hshows kept hst
    have hbegin : observer (hooks.begin st) = .history [] := by
      rw [hshows.begin, hst]
      rfl
    rw [hdrives.history hshows hbegin, Observer.records, List.append_nil, List.reverse_reverse]
  · intro hstopper
    have hword (verdict : Verdict) (hi : verdict ≠ .interrupted) (ht : verdict ≠ .timeLimit)
        (record : Record α) (st : σ) : (hooks.judge record st).1 ≠ some verdict := by
      obtain ⟨elapsed, stopper, hjudge⟩ := hstopper record st
      rw [hjudge]
      exact fun h => (stopper.judge_cases elapsed h).elim hi ht
    refine ⟨(hdrives.verdict_iff (hword .optimal nofun nofun)).trans ?_,
      (hdrives.verdict_iff (hword .iterationLimit nofun nofun)).trans ?_⟩
    · simp only [Progress.verdict_eq_optimal]
    · simp only [Progress.verdict_eq_iterationLimit]

/-! ## A run that is stopped and goes on -/

/-- A history, and a stop condition that stops at once. -/
def hastyHooks : Hooks (Observer Float) Float := .standard (fun _ => 0) (.interrupt true)

/-- A driven run is stopped after its first record; an item of the stream goes on with the second
one, which ends both, and a step gives it again. -/
theorem drivers_agree_hasty : ∃ record,
    flakySolver.log hastyHooks (.history []) = ⟨[record], [record]⟩ ∧
    (flakySolver.solve hastyHooks (.history [])).verdict = .ok .interrupted ∧
    ((flakySolver.solve hastyHooks (.history [])).verdict = .ok .optimal ↔
      record.progress = .success) ∧
    (flakySolver.solve hastyHooks (.history [])).hooks.records = some [record] ∧
    flakySolver.delivery [.solve hastyHooks (.history []), .next, .step] =
      flakySolver.results 3 ∧
    (flakySolver.calls [.solve hastyHooks (.history []), .next, .step]).2 =
      (flakySolver.after 3).mark true := by
  have hreach : Reachable bowlProgram Options.default flakySolver :=
    .create (x := bowlProgram.initialGuess) rfl
  have hpending : flakySolver.step.1.result.toOption.any
      (fun record => decide (record.progress = .pending)) = true := by decide +kernel
  have hends : endsStream flakySolver.step.2.step.1.result = true := by decide +kernel
  have hopen : flakySolver.step.2.ended = false := flakySolver.ended_step
  obtain ⟨record, hresult, htest⟩ := exists_record hpending
  have hprogress : record.progress = .pending := of_decide_eq_true htest
  have hsolve : flakySolver.solve hastyHooks (.history []) =
      ⟨flakySolver.step.1.events ++ [.stopped flakySolver.step.2.iterations .interrupted],
        .ok .interrupted, .history [record], flakySolver.step.2⟩ := by
    rw [solve, drive_eq]
    simp [hresult, hprogress, hastyHooks, Hooks.standard, Stopper.judge, Observer.begin,
      Observer.observe]
  have hlog : flakySolver.log hastyHooks (.history []) = ⟨[record], [record]⟩ := by
    rw [log, solve, drive_eq]
    simp [hresult, hprogress, Hooks.logged, hastyHooks, Hooks.standard, Stopper.judge]
  have hlength :
      (flakySolver.delivery [.solve hastyHooks (.history []), .next, .step]).length = 3 := by
    simp [delivery, delivered, call, next, hlog, hsolve, hopen, Driven.fault]
  have hmarked : (flakySolver.ended || (flakySolver.calls
      [.solve hastyHooks (.history []), .next, .step]).1.any Answer.endsStream) = true := by
    simp [calls, call, next, hsolve, hopen, hends, Answer.endsStream]
  obtain ⟨hdelivery, hsolver, _, hdriven⟩ := drivers_agree hreach
    [.solve hastyHooks (.history []), .next, .step] (by simp [Call.Continues])
  obtain ⟨_, _, hhistory, hverdict⟩ := hdriven (Observer Float) hastyHooks (.history [])
  have hoptimal := (hverdict (Hooks.usesStopper_standard _ _)).1
  have hkept := hhistory id (Hooks.shows_standard _ _) [] rfl
  rw [hlog] at hoptimal hkept
  rw [hlength] at hdelivery hsolver
  rw [hmarked] at hsolver
  exact ⟨record, hlog, by rw [hsolve], hoptimal.trans (by simp), hkept, hdelivery, hsolver⟩

end Solver

end InteriorPoint
