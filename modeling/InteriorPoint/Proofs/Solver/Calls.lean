import Mathlib
import InteriorPoint.Proofs.Solver.Run

/-!
# Proofs/Solver/Calls — sequences of calls, and what they deliver

A `Call` is a step, a request for the next item of the stream, a driven run with any hooks, or a
restart; `calls` makes a list of them and collects the answers.

What a driven run delivers goes to its hooks, so it is read off there: `Hooks.logged` are the same
hooks with a log of the records they are given, and the log changes nothing else (`solve_logged`).
`Drives` lists everything that a driven run can do, one constructor each.

* `calls_deliver` — in whatever way they are made, calls deliver the results of steps, one after the
  other, and leave the solver where those steps leave it.
-/

namespace InteriorPoint

variable {α σ : Type}

/-! ## Calls -/

/-- **A call on a solver.** -/
inductive Call (α : Type) : Type 1 where
  | step
  | next
  | solve {σ : Type} (hooks : Hooks σ α) (st : σ)
  | restart (x : Matrix α)

/-- Whether a call goes on with the run that is there. -/
def Call.Continues : Call α → Prop
  | .restart _ => False
  | _ => True

/-- **The answer to a call.** -/
inductive Answer (α : Type) : Type 1 where
  | step (t : Traced α (Record α))
  | next (item : Option (Traced α (Record α)))
  | solve {σ : Type} (events : List (Event α)) (verdict : Except (Error α) Verdict) (hooks : σ)
  | restart (result : Except (Error α) Unit)

/-- The item of the stream that an answer is, if it is one. -/
def Answer.item : Answer α → List (Option (Except (Error α) (Record α)))
  | .next item => [item.map Traced.result]
  | _ => []

/-- Whether an answer is the last item of the stream. -/
def Answer.endsStream : Answer α → Bool
  | .next (some t) => Solver.endsStream t.result
  | _ => false

/-! ## Hooks that keep a log -/

/-- **What the hooks of a driven run are given**, in order. -/
structure Log (α : Type) where
  /-- The records that the observer is shown. -/
  shown : List (Record α)
  /-- The records that are put before the judge. -/
  judged : List (Record α)

/-- **The same hooks, with a log** of what they are given. -/
def Hooks.logged (hooks : Hooks σ α) : Hooks (Log α × σ) α where
  begin st := (st.1, hooks.begin st.2)
  observe record st :=
    ((hooks.observe record st.2).1,
      ⟨st.1.shown ++ [record], st.1.judged⟩, (hooks.observe record st.2).2)
  judge record st :=
    ((hooks.judge record st.2).1,
      ⟨st.1.shown, st.1.judged ++ [record]⟩, (hooks.judge record st.2).2)

/-- The error that a driven run ends with, as a result. -/
def Driven.fault (d : Driven σ α) : List (Except (Error α) (Record α)) :=
  match d.verdict with
  | .error err => [.error err]
  | .ok _ => []

namespace Solver

/-- The stream goes on after a pending record only. -/
theorem endsStream_eq_false {result : Except (Error α) (Record α)} :
    endsStream result = false ↔ ∃ record, result = .ok record ∧ record.progress = .pending := by
  cases result with
  | error err => exact ⟨nofun, nofun⟩
  | ok record =>
    have hterminal : record.progress.isTerminal = false ↔ record.progress = .pending := by
      cases record.progress <;> simp [Progress.isTerminal]
    refine hterminal.trans ⟨fun h => ⟨record, rfl, h⟩, ?_⟩
    rintro ⟨_, ⟨⟩, h⟩
    exact h

variable [Scalar α] {s t : Solver α}

/-- **Makes a call.**  A restart that fails leaves the solver as it is. -/
def call (s : Solver α) : Call α → Answer α × Solver α
  | .step => (.step s.step.1, s.step.2)
  | .next => (.next s.next.1, s.next.2)
  | .solve hooks st =>
    (.solve (s.solve hooks st).events (s.solve hooks st).verdict (s.solve hooks st).hooks,
      (s.solve hooks st).solver)
  | .restart x =>
    match s.restart x with
    | .ok t => (.restart (.ok ()), t)
    | .error err => (.restart (.error err), s)

/-- **Makes one call after the other.** -/
def calls : List (Call α) → Solver α → List (Answer α) × Solver α
  | [], s => ([], s)
  | c :: cs, s => ((s.call c).1 :: (calls cs (s.call c).2).1, (calls cs (s.call c).2).2)

/-- Calls reach what is reachable. -/
theorem Reachable.call {p : Program α} {o : Options α} (h : Reachable p o s) (c : Call α) :
    Reachable p o (s.call c).2 := by
  cases c with
  | step => exact h.step
  | next => exact h.next
  | solve hooks st => exact h.solve hooks st
  | restart x =>
    rw [Solver.call]
    split
    · rename_i t ht
      exact h.restart ht
    · exact h

/-! ## Driven runs -/

/-- **What a driven run does**, from hooks in the state `st`: the log of what they are given, and
the end of the run. -/
inductive Drives (hooks : Hooks σ α) : σ → Solver α → Log α → Driven σ α → Prop where
  /-- The step fails. -/
  | broken {st : σ} {s : Solver α} {err : Error α} (hresult : s.step.1.result = .error err) :
    Drives hooks st s ⟨[], []⟩ ⟨s.step.1.events, .error err, st, s.step.2⟩
  /-- The record is a success. -/
  | optimal {st : σ} {s : Solver α} {record : Record α} (hresult : s.step.1.result = .ok record)
    (hprogress : record.progress = .success) :
    Drives hooks st s ⟨[record], []⟩
      ⟨s.step.1.events ++ (hooks.observe record st).1, .ok .optimal, (hooks.observe record st).2,
        s.step.2⟩
  /-- No step is left. -/
  | exhausted {st : σ} {s : Solver α} {record : Record α} (hresult : s.step.1.result = .ok record)
    (hprogress : record.progress = .failed) :
    Drives hooks st s ⟨[record], []⟩
      ⟨s.step.1.events ++ (hooks.observe record st).1, .ok .iterationLimit,
        (hooks.observe record st).2, s.step.2⟩
  /-- The judge stops the run after a pending record. -/
  | stopped {st : σ} {s : Solver α} {record : Record α} {verdict : Verdict}
    (hresult : s.step.1.result = .ok record) (hprogress : record.progress = .pending)
    (hjudge : (hooks.judge record (hooks.observe record st).2).1 = some verdict) :
    Drives hooks st s ⟨[record], [record]⟩
      ⟨s.step.1.events ++ (hooks.observe record st).1 ++ [.stopped s.step.2.iterations verdict],
        .ok verdict, (hooks.judge record (hooks.observe record st).2).2, s.step.2⟩
  /-- The run goes on after a pending record. -/
  | continued {st : σ} {s : Solver α} {record : Record α} {log : Log α} {rest : Driven σ α}
    (hresult : s.step.1.result = .ok record) (hprogress : record.progress = .pending)
    (hjudge : (hooks.judge record (hooks.observe record st).2).1 = none)
    (hrest : Drives hooks (hooks.judge record (hooks.observe record st).2).2 s.step.2 log rest) :
    Drives hooks st s ⟨record :: log.shown, record :: log.judged⟩
      { rest with events := s.step.1.events ++ (hooks.observe record st).1 ++ rest.events }

/-- **One round of a driven run.** -/
theorem drive_eq (hooks : Hooks σ α) (st : σ) (s : Solver α) :
    s.drive hooks st =
      match s.step.1.result with
      | .error err => ⟨s.step.1.events, .error err, st, s.step.2⟩
      | .ok record =>
        let seen := hooks.observe record st
        let events := s.step.1.events ++ seen.1
        match record.progress with
        | .success => ⟨events, .ok .optimal, seen.2, s.step.2⟩
        | .failed => ⟨events, .ok .iterationLimit, seen.2, s.step.2⟩
        | .pending =>
          let judged := hooks.judge record seen.2
          match judged.1 with
          | some verdict =>
            ⟨events ++ [.stopped s.step.2.iterations verdict], .ok verdict, judged.2, s.step.2⟩
          | none =>
            let rest := s.step.2.drive hooks judged.2
            { rest with events := events ++ rest.events } := by
  rw [drive]
  split
  rename_i t s' hstep
  rw [hstep]
  split
  · rename_i err ht
    simp only [ht]
  · rename_i record ht
    simp only [ht]
    split
    · rename_i hprogress
      simp only [hprogress]
    · rename_i hprogress
      simp only [hprogress]
    · rename_i hprogress
      simp only [hprogress]
      split
      · rename_i verdict st' hword
        have hjudge : hooks.judge record (hooks.observe record st).2 = (some verdict, st') := hword
        simp only [hjudge]
      · rename_i st' hword
        have hjudge : hooks.judge record (hooks.observe record st).2 = (none, st') := hword
        simp only [hjudge]

/-- A driven run does one of the things that it can do. -/
theorem exists_drives (hooks : Hooks σ α) (st : σ) (s : Solver α) :
    ∃ log, Drives hooks st s log (s.drive hooks st) := by
  -- by induction on the calls that can still give a pending record
  induction hn : s.remaining using Nat.strongRecOn generalizing s st with
  | _ n ih =>
    rw [drive_eq]
    rcases hresult : s.step.1.result with err | record
    · exact ⟨_, .broken hresult⟩
    · rcases hprogress : record.progress <;> simp only [hprogress]
      · rcases hjudge : (hooks.judge record (hooks.observe record st).2).1 with _ | verdict
        · obtain ⟨log, hlog⟩ := ih _ (hn ▸ remaining_step_lt hresult hprogress)
            (hooks.judge record (hooks.observe record st).2).2 s.step.2 rfl
          exact ⟨_, .continued hresult hprogress hjudge hlog⟩
        · exact ⟨_, .stopped hresult hprogress hjudge⟩
      · exact ⟨_, .optimal hresult hprogress⟩
      · exact ⟨_, .exhausted hresult hprogress⟩

/-- **A log changes nothing in a driven run**, and holds what the hooks are given. -/
theorem Drives.drive_logged {hooks : Hooks σ α} {st : σ} {log : Log α} {d : Driven σ α}
    (h : Drives hooks st s log d) (earlier : Log α) :
    s.drive hooks.logged (earlier, st) =
      ⟨d.events, d.verdict,
        (⟨earlier.shown ++ log.shown, earlier.judged ++ log.judged⟩, d.hooks), d.solver⟩ := by
  induction h generalizing earlier with
  | broken hresult => simp [drive_eq, hresult]
  | optimal hresult hprogress => simp [drive_eq, hresult, hprogress, Hooks.logged]
  | exhausted hresult hprogress => simp [drive_eq, hresult, hprogress, Hooks.logged]
  | stopped hresult hprogress hjudge =>
    simp [drive_eq, hresult, hprogress, Hooks.logged, hjudge]
  | @continued st s record log rest hresult hprogress hjudge _ ih =>
    have hround := ih ⟨earlier.shown ++ [record], earlier.judged ++ [record]⟩
    rw [drive_eq]
    simp only [hresult, hprogress, Hooks.logged, hjudge]
    rw [← Hooks.logged, hround]
    simp

/-- What the hooks of a driven run are given. -/
def log (hooks : Hooks σ α) (st : σ) (s : Solver α) : Log α :=
  (s.solve hooks.logged (⟨[], []⟩, st)).hooks.1

/-- A driven run does what its log says. -/
theorem drives (hooks : Hooks σ α) (st : σ) (s : Solver α) :
    Drives hooks (hooks.begin st) s (s.log hooks st) (s.solve hooks st) := by
  obtain ⟨seen, hseen⟩ := exists_drives hooks (hooks.begin st) s
  have hlogged : s.solve hooks.logged (⟨[], []⟩, st) = _ := hseen.drive_logged ⟨[], []⟩
  have hlog : s.log hooks st = seen := by
    rw [log, hlogged]
    rfl
  rw [hlog]
  exact hseen

/-- **The log changes nothing else.** -/
theorem solve_logged (hooks : Hooks σ α) (st : σ) (s : Solver α) :
    s.solve hooks.logged (⟨[], []⟩, st) =
      ⟨(s.solve hooks st).events, (s.solve hooks st).verdict,
        (s.log hooks st, (s.solve hooks st).hooks), (s.solve hooks st).solver⟩ :=
  (drives hooks st s).drive_logged ⟨[], []⟩

/-! ## Steps one after the other -/

/-- The solver after `n` steps. -/
def after (n : ℕ) (s : Solver α) : Solver α := (fun t : Solver α => t.step.2)^[n] s

/-- **The results of `n` steps.** -/
def results : ℕ → Solver α → List (Except (Error α) (Record α))
  | 0, _ => []
  | n + 1, s => s.step.1.result :: results n s.step.2

theorem after_succ (n : ℕ) (s : Solver α) : s.after (n + 1) = s.step.2.after n := rfl

theorem after_add (m n : ℕ) (s : Solver α) : s.after (m + n) = (s.after m).after n := by
  rw [after, Nat.add_comm, Function.iterate_add_apply]
  rfl

theorem Reachable.after {p : Program α} {o : Options α} (h : Reachable p o s) (n : ℕ) :
    Reachable p o (s.after n) := by
  induction n generalizing s with
  | zero => exact h
  | succ n ih => exact ih h.step

theorem results_add (m n : ℕ) (s : Solver α) :
    s.results (m + n) = s.results m ++ (s.after m).results n := by
  induction m generalizing s with
  | zero => simp [results, after]
  | succ m ih =>
    rw [Nat.add_right_comm, results, results, ih, after_succ]
    rfl

@[simp] theorem length_results (n : ℕ) (s : Solver α) : (s.results n).length = n := by
  induction n generalizing s with
  | zero => rfl
  | succ n ih => rw [results, List.length_cons, ih]

/-! ## The end of the stream makes no difference to steps -/

/-- The solver with the end of the stream marked, or not. -/
def mark (s : Solver α) (ended : Bool) : Solver α := { s with ended }

omit [Scalar α] in
@[simp] theorem ended_mark (s : Solver α) (ended : Bool) : (s.mark ended).ended = ended := rfl

omit [Scalar α] in
@[simp] theorem mark_mark (s : Solver α) (b ended : Bool) : (s.mark b).mark ended = s.mark ended :=
  rfl

omit [Scalar α] in
theorem mark_ended (s : Solver α) : s.mark s.ended = s := rfl

theorem examine_mark (s : Solver α) (ended : Bool) :
    (s.mark ended).examine = (s.examine.1, s.examine.2.mark ended) := by
  have hassess : (s.mark ended).assess = s.assess := rfl
  simp only [examine, hassess]
  change (if s.options.maxIterations ≤ s.iterations then _ else _) = _
  split
  · rfl
  · split
    · rfl
    · change (if Residual.isOptimal _ 0 s.options.globalTolerance then _ else _) = _
      split <;> rfl

theorem step_mark (s : Solver α) (ended : Bool) :
    (s.mark ended).step = (s.step.1, s.step.2.mark ended) := by
  have hphase : (s.mark ended).phase = s.phase := rfl
  simp only [step, hphase]
  split
  · rfl
  · exact examine_mark s ended
  · rename_i e r _
    have hadvance : (s.mark ended).advance e r = s.advance e r := rfl
    rw [hadvance]
    split
    · rfl
    · rename_i it next _
      have hcommit : (s.mark ended).commit it next = (s.commit it next).mark ended := rfl
      rw [hcommit, examine_mark]

/-- Steps do not end the stream. -/
theorem ended_step (s : Solver α) : s.step.2.ended = s.ended :=
  congrArg (fun r => r.2.ended) (step_mark s s.ended)

theorem results_mark (n : ℕ) (s : Solver α) (ended : Bool) :
    (s.mark ended).results n = s.results n := by
  induction n generalizing s with
  | zero => rfl
  | succ n ih => rw [results, results, step_mark, ih]

theorem after_mark (n : ℕ) (s : Solver α) (ended : Bool) :
    (s.mark ended).after n = (s.after n).mark ended := by
  induction n generalizing s with
  | zero => rfl
  | succ n ih => rw [after_succ, after_succ, step_mark, ih]

theorem ended_after (n : ℕ) (s : Solver α) : (s.after n).ended = s.ended := by
  induction n generalizing s with
  | zero => rfl
  | succ n ih => rw [after_succ, ih, ended_step]

/-! ## What calls deliver -/

/-- **What a call delivers**: the result that it returns, or the records that it shows to its hooks
and the error that it ends with.  A request for an item after the end of the stream delivers nothing,
and neither does a restart. -/
def delivered (s : Solver α) : Call α → List (Except (Error α) (Record α))
  | .step => [s.step.1.result]
  | .next => (s.next.1.map Traced.result).toList
  | .solve hooks st => (s.log hooks st).shown.map .ok ++ (s.solve hooks st).fault
  | .restart _ => []

/-- **What a list of calls delivers**, in the order of the calls. -/
def delivery : List (Call α) → Solver α → List (Except (Error α) (Record α))
  | [], _ => []
  | c :: cs, s => s.delivered c ++ delivery cs (s.call c).2

/-- **A driven run delivers the results of steps.** -/
theorem Drives.delivers {hooks : Hooks σ α} {st : σ} {log : Log α} {d : Driven σ α}
    (h : Drives hooks st s log d) :
    ∃ n, log.shown.map .ok ++ d.fault = s.results n ∧ d.solver = s.after n := by
  induction h with
  | broken hresult => exact ⟨1, by simp [Driven.fault, results, hresult], rfl⟩
  | optimal hresult _ => exact ⟨1, by simp [Driven.fault, results, hresult], rfl⟩
  | exhausted hresult _ => exact ⟨1, by simp [Driven.fault, results, hresult], rfl⟩
  | stopped hresult _ _ => exact ⟨1, by simp [Driven.fault, results, hresult], rfl⟩
  | continued hresult _ _ _ ih =>
    obtain ⟨n, hresults, hsolver⟩ := ih
    refine ⟨n + 1, ?_, hsolver⟩
    rw [results, hresult, ← hresults]
    rfl

/-- **A call delivers the results of steps** and leaves the solver where they do, but for the end of
the stream, which is the last item that the stream gave. -/
theorem call_delivers (s : Solver α) {c : Call α} (hc : c.Continues) :
    ∃ n, s.delivered c = s.results n ∧
      (s.call c).2 = (s.after n).mark (s.ended || (s.call c).1.endsStream) := by
  cases c with
  | step =>
    refine ⟨1, rfl, ?_⟩
    change s.step.2 = s.step.2.mark (s.ended || false)
    rw [Bool.or_false, ← ended_step, mark_ended]
  | next =>
    cases hended : s.ended with
    | true =>
      have hnext : s.next = (none, s) := if_pos hended
      refine ⟨0, by rw [delivered, hnext]; rfl, ?_⟩
      change s.next.2 = s.mark true
      rw [hnext, ← hended, mark_ended]
    | false =>
      have hnext : s.next = (some s.step.1, s.step.2.mark (endsStream s.step.1.result)) :=
        if_neg (Bool.eq_false_iff.mp hended)
      refine ⟨1, by rw [delivered, hnext]; rfl, ?_⟩
      simp only [call, hnext]
      rfl
  | solve hooks st =>
    obtain ⟨n, hresults, hsolver⟩ := (drives hooks st s).delivers
    refine ⟨n, hresults, ?_⟩
    change (s.solve hooks st).solver = (s.after n).mark (s.ended || false)
    rw [hsolver, Bool.or_false, ← ended_after n s, mark_ended]
  | restart x => exact hc.elim

/-- **Calls deliver the results of steps**, one after the other, in whatever way they are made. -/
theorem calls_deliver {cs : List (Call α)} (hcs : ∀ c ∈ cs, c.Continues) (s : Solver α) :
    ∃ n, s.delivery cs = s.results n ∧
      (s.calls cs).2 =
        (s.after n).mark (s.ended || (s.calls cs).1.any Answer.endsStream) := by
  induction cs generalizing s with
  | nil => exact ⟨0, rfl, by rw [calls, List.any_nil, Bool.or_false]; rfl⟩
  | cons c cs ih =>
    obtain ⟨hc, hcs⟩ := List.forall_mem_cons.mp hcs
    obtain ⟨m, hresults, hsolver⟩ := s.call_delivers hc
    obtain ⟨n, hrest, hend⟩ := ih hcs (s.call c).2
    refine ⟨m + n, ?_, ?_⟩
    · rw [delivery, hresults, hrest, hsolver, results_mark, ← results_add]
    · rw [calls, hend, List.any_cons, ← Bool.or_assoc, after_add]
      have hended : (s.call c).2.ended = (s.ended || (s.call c).1.endsStream) := by
        rw [hsolver, ended_mark]
      rw [hended, hsolver, after_mark, mark_mark]

end Solver

end InteriorPoint
