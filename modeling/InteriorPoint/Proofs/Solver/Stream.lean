import Mathlib
import InteriorPoint.Proofs.Solver.Atomicity
import InteriorPoint.Proofs.Solver.Calls
import InteriorPoint.Proofs.Solver.Success

/-!
# Proofs/Solver/Stream — the records of a run, one call after the other

A run gives records with the numbers `0`, `1`, `2`, …, all of them pending but the last one, which
is given again for ever.  Calls that fail leave no trace in this, and the same call may succeed
later: the functions of a program may have a state of their own, so here they may be others at every
call.  Only the kinds of the blocks of constraints stay what they are.

* `Standing` — how a run that is not over stands after the records it has given.  A call that fails
  changes nothing in it; one that gives a record gives it by the law (`Unseen.lawful`), and leaves
  the run standing after one record more (`Unseen.standing`) or ends it.
* `budget` — how many pending records can still come, which bounds the items of the stream
  (`endsOnce_items`) and the steps of a driven run (`Drives.length_le`).
-/

namespace InteriorPoint

/-- Blocks of constraints of the same kinds, in the same order. -/
def Program.Alike {α : Type} (q p : Program α) : Prop :=
  q.constraints.map Constraint.kind = p.constraints.map Constraint.kind

namespace Solver

variable {α σ : Type}

/-! ## Counting -/

/-- The number of the next record, in a run that is not over. -/
def upcoming (s : Solver α) : ℕ :=
  match s.phase with
  | .stepping .. => s.iterations + 1
  | _ => s.iterations

/-- **How many pending records the run can still give.** -/
def budget (s : Solver α) : ℕ :=
  match s.phase with
  | .finished .. => 0
  | _ => s.options.maxIterations - s.upcoming

/-! ## Functions that change between calls -/

/-- The solver while the functions of its program are those of `p`. -/
def under (s : Solver α) (p : Program α) : Solver α := { s with program := p }

variable [Scalar α] {s t : Solver α}

/-- **The beginning of a run** from `x`: a new solver, or one begun again. -/
def Begins (p : Program α) (o : Options α) (x : Matrix α) (s : Solver α) : Prop :=
  create p x o = .ok s ∨
    ∃ t : Solver α, t.program = p ∧ t.options = o ∧ t.restart x = .ok s

theorem Begins.exists_start {p : Program α} {o : Options α} {x : Matrix α} (h : Begins p o x s) :
    ∃ size, Size.compute p x = .ok size ∧ s = start p o size x := by
  obtain h | ⟨t, rfl, rfl, h⟩ := h
  · simp only [create, bind_eq_ok, pure_eq_ok] at h
    obtain ⟨_, _, size, hsize, rfl⟩ := h
    exact ⟨size, hsize, rfl⟩
  · simp only [restart, bind_eq_ok, pure_eq_ok] at h
    obtain ⟨size, hsize, rfl⟩ := h
    exact ⟨size, hsize, rfl⟩

section Calls

variable (programs : ℕ → Program α)

/-- The solver after `k` steps, the functions of the program at step `i` being those of
`programs i`. -/
def evolve (s : Solver α) : ℕ → Solver α
  | 0 => s
  | k + 1 => ((evolve s k).under (programs k)).step.2

/-- What step `k` returns. -/
def returned (s : Solver α) (k : ℕ) : Except (Error α) (Record α) :=
  ((s.evolve programs k).under (programs k)).step.1.result

/-- The records that the first `k` steps return; those that fail do not count. -/
def records (s : Solver α) (k : ℕ) : List (Record α) :=
  (List.range k).filterMap fun i => (s.returned programs i).toOption

theorem steps_evolve (s : Solver α) (k : ℕ) :
    Steps ((s.evolve programs k).under (programs k)) (s.returned programs k)
      (s.evolve programs (k + 1)) :=
  ((s.evolve programs k).under (programs k)).steps

theorem records_succ (s : Solver α) (k : ℕ) :
    s.records programs (k + 1) =
      s.records programs k ++ (s.returned programs k).toOption.toList := by
  simp only [records, List.range_succ, List.filterMap_append, List.filterMap_cons,
    List.filterMap_nil]
  cases (s.returned programs k).toOption <;> rfl

end Calls

/-! ## The law of the records -/

/-- **The law of a record** that comes after the records `earlier` of a run from `x`; `t` is the
solver after the call that returns it. -/
structure Lawful (o : Options α) (x : Matrix α) (earlier : List (Record α)) (record : Record α)
    (t : Solver α) : Prop where
  number : record.iteration = earlier.length
  limit : record.iteration ≤ o.maxIterations
  first : earlier = [] → record.x = x
  failed : record.progress = .failed ↔ record.iteration = o.maxIterations
  infinite : record.progress = .failed →
    record.primal = Scalar.infinity ∧ record.dual = Scalar.infinity
  success : record.iteration < o.maxIterations → ∃ e r, t.Assessed e r ∧
    record = t.report r.primal r.dual record.progress ∧
    (record.progress = .success ↔ r.isOptimal 0 o.globalTolerance = true)

/-- **A run from `x` that is not over**, after the records `earlier`. -/
structure Standing (p : Program α) (o : Options α) (x : Matrix α) (earlier : List (Record α))
    (s : Solver α) : Prop where
  alike : s.program.Alike p
  options : s.options = o
  consistent : Consistent s
  /-- No evaluation waits to be used: it might be out of date by the next call. -/
  known : s.known = none
  phase : s.phase = .ready ∧ s.iterate.x = x ∨ ∃ e r, s.phase = .stepping e r
  number : s.upcoming = earlier.length
  limit : s.upcoming ≤ o.maxIterations

variable {p q : Program α} {o : Options α} {x : Matrix α} {earlier : List (Record α)}
  {record : Record α}

/-- A run stands at its beginning, after no records. -/
theorem Begins.standing (h : Begins p o x s) : Standing p o x [] s := by
  obtain ⟨size, hsize, rfl⟩ := h.exists_start
  exact
    { alike := rfl
      options := rfl
      consistent := (settled_start hsize).toConsistent
      known := rfl
      phase := .inl ⟨rfl, rfl⟩
      number := rfl
      limit := Nat.zero_le _ }

/-- Other functions on blocks of the same kinds do not disturb a run between two calls. -/
theorem Standing.under (h : Standing p o x earlier s) (hq : q.Alike p) :
    Standing p o x earlier (s.under q) := by
  obtain ⟨hm, hsystem, hfits, _⟩ := h.consistent
  refine ⟨hq, h.options, ⟨?_, hsystem, hfits, ?_⟩, h.known, h.phase, h.number, h.limit⟩
  · exact hm.trans (h.alike.trans hq.symm)
  · intro e he
    exact nomatch h.known.symm.trans he

/-- **An iterate that is about to be examined**, after the records `earlier`. -/
structure Unseen (p : Program α) (o : Options α) (x : Matrix α) (earlier : List (Record α))
    (s : Solver α) : Prop where
  alike : s.program.Alike p
  options : s.options = o
  consistent : Consistent s
  number : s.iterations = earlier.length
  limit : s.iterations ≤ o.maxIterations
  first : earlier = [] → s.iterate.x = x

/-- **A call that gives a record gives it on an unseen iterate**: that of the beginning, or one that
a Newton step has led to. -/
theorem Standing.exists_unseen (hs : Standing p o x earlier s) (h : Steps s (.ok record) t) :
    ∃ u, Unseen p o x earlier u ∧ Examines u (.ok record) t := by
  have hnumber := hs.number
  have hlimit := hs.limit
  cases h with
  | finished hphase =>
    obtain ⟨hready, _⟩ | ⟨e, r, hstepping⟩ := hs.phase
    · cases hready.symm.trans hphase
    · cases hstepping.symm.trans hphase
  | examined hphase hexamine =>
    simp only [upcoming, hphase] at hnumber hlimit
    refine ⟨s, ⟨hs.alike, hs.options, hs.consistent, hnumber, hlimit, fun _ => ?_⟩, hexamine⟩
    obtain ⟨_, hx⟩ | ⟨e, r, hstepping⟩ := hs.phase
    · exact hx
    · cases hstepping.symm.trans hphase
  | @advanced _ next _ it _ _ hphase hadvance hexamine =>
    simp only [upcoming, hphase] at hnumber hlimit
    refine ⟨s.commit it next, ⟨hs.alike, hs.options, hs.consistent.commit hadvance, hnumber, hlimit,
      ?_⟩, hexamine⟩
    -- a Newton step comes after a record
    rintro rfl
    cases hnumber

/-- **A record on an unseen iterate keeps to the law.** -/
theorem Unseen.lawful (hs : Unseen p o x earlier s) (h : Examines s (.ok record) t) :
    Lawful o x earlier record t := by
  obtain ⟨_, rfl, hconsistent, hnumber, hlimit, hfirst⟩ := hs
  cases h with
  | exhausted hmax =>
    exact
      { number := hnumber
        limit := hlimit
        first := hfirst
        failed := iff_of_true rfl (hlimit.antisymm hmax)
        infinite := fun _ => ⟨rfl, rfl⟩
        success := fun hlt => absurd hmax (Nat.not_le.mpr hlt) }
  | @converged e r hmax hassess hopt =>
    obtain ⟨he, hr⟩ := hconsistent.assessed hassess
    exact
      { number := hnumber
        limit := hlimit
        first := hfirst
        failed := iff_of_false nofun hmax.ne
        infinite := nofun
        success := fun _ => ⟨e, r, ⟨he, hr⟩, rfl, iff_of_true rfl hopt⟩ }
  | @pending e r hmax hassess hopt =>
    obtain ⟨he, hr⟩ := hconsistent.assessed hassess
    exact
      { number := hnumber
        limit := hlimit
        first := hfirst
        failed := iff_of_false nofun hmax.ne
        infinite := nofun
        success := fun _ => ⟨e, r, ⟨he, hr⟩, rfl, iff_of_false nofun (by simp [hopt])⟩ }

/-- **After a pending record the run stands**, with a step due. -/
theorem Unseen.standing (hs : Unseen p o x earlier s) (h : Examines s (.ok record) t)
    (hpending : record.progress = .pending) : Standing p o x (earlier ++ [record]) t := by
  have hconsistent := (h.settled hs.consistent).toConsistent
  cases h with
  | exhausted hmax => cases hpending
  | converged hmax hassess hopt => cases hpending
  | @pending e r hmax hassess hopt =>
    have hnumber : s.iterations + 1 = (earlier ++ [s.report r.primal r.dual .pending]).length := by
      rw [List.length_append, hs.number, List.length_singleton]
    exact ⟨hs.alike, hs.options, hconsistent, rfl, .inr ⟨e, r, rfl⟩, hnumber,
      hs.options ▸ Nat.succ_le_of_lt hmax⟩

/-- **A terminal record ends the run.** -/
theorem Examines.finished_of_terminal (h : Examines s (.ok record) t)
    (hterminal : record.progress ≠ .pending) : t.phase = .finished record hterminal := by
  cases h with
  | exhausted hmax => rfl
  | converged hmax hassess hopt => rfl
  | pending hmax hassess hopt => exact absurd rfl hterminal

/-- Once it has ended, every call gives the terminal record and changes nothing. -/
theorem step_of_finished {hterminal : record.progress ≠ .pending}
    (h : s.phase = .finished record hterminal) : s.step = (pure record, s) := by
  rw [step, h]

/-! ## Every number of calls -/

/-- **As long as no record is terminal, the run stands.** -/
theorem Begins.standing_evolve (h : Begins p o x s) {programs : ℕ → Program α}
    (halike : ∀ k, (programs k).Alike p) (k : ℕ)
    (hpending : ∀ r ∈ s.records programs k, r.progress = .pending) :
    Standing p o x (s.records programs k) (s.evolve programs k) := by
  induction k with
  | zero => exact h.standing
  | succ k ih =>
    rw [records_succ] at hpending ⊢
    obtain ⟨hearlier, hlast⟩ := List.forall_mem_append.mp hpending
    have hs := (ih hearlier).under (halike k)
    have hsteps := s.steps_evolve programs k
    rcases hresult : s.returned programs k with err | record
    · rw [hresult] at hsteps
      rw [hs.consistent.eq_of_error hsteps]
      exact (List.append_nil _).symm ▸ hs
    · rw [hresult] at hsteps hlast
      obtain ⟨u, hu, hexamine⟩ := hs.exists_unseen hsteps
      exact hu.standing hexamine (hlast record (List.mem_singleton_self record))

/-- **After a terminal record nothing happens any more.** -/
theorem finished_evolve {programs : ℕ → Program α} {k : ℕ}
    {hterminal : record.progress ≠ .pending}
    (h : (s.evolve programs k).phase = .finished record hterminal) (j : ℕ) :
    (s.evolve programs (k + j)).phase = .finished record hterminal := by
  induction j with
  | zero => exact h
  | succ j ih =>
    have hstep := step_of_finished (s := (s.evolve programs (k + j)).under (programs (k + j))) ih
    rw [← Nat.add_assoc, evolve, hstep]
    exact ih

/-! ## How many pending records can come -/

theorem Examines.budget_le {result : Except (Error α) (Record α)} (h : Examines s result t) :
    t.budget ≤ s.options.maxIterations - s.iterations ∧
      (endsStream result = false → t.budget < s.options.maxIterations - s.iterations) := by
  cases h with
  | exhausted hmax => exact ⟨Nat.zero_le _, nofun⟩
  | broken hmax hassess => exact ⟨le_rfl, nofun⟩
  | converged hmax hassess hopt => exact ⟨Nat.zero_le _, nofun⟩
  | pending hmax hassess hopt =>
    have hlt : s.options.maxIterations - (s.iterations + 1) <
        s.options.maxIterations - s.iterations := by omega
    exact ⟨hlt.le, fun _ => hlt⟩

/-- **A call never adds to the budget, and a pending record takes from it.** -/
theorem Steps.budget_le {result : Except (Error α) (Record α)} (h : Steps s result t) :
    t.budget ≤ s.budget ∧ (endsStream result = false → t.budget < s.budget) := by
  cases h with
  | @finished record terminal hphase =>
    refine ⟨le_rfl, fun hopen => ?_⟩
    obtain ⟨_, ⟨⟩, hpending⟩ := endsStream_eq_false.mp hopen
    exact absurd hpending terminal
  | examined hphase hexamine =>
    have hbudget : s.budget = s.options.maxIterations - s.iterations := by
      simp only [budget, upcoming, hphase]
    exact hbudget ▸ hexamine.budget_le
  | refused hphase hadvance => exact ⟨le_rfl, nofun⟩
  | advanced hphase hadvance hexamine =>
    have hbudget : s.budget = s.options.maxIterations - (s.iterations + 1) := by
      simp only [budget, upcoming, hphase]
    exact hbudget ▸ hexamine.budget_le

theorem budget_after (n : ℕ) (s : Solver α) : (s.after n).budget ≤ s.budget := by
  induction n generalizing s with
  | zero => exact le_rfl
  | succ n ih => exact (ih s.step.2).trans s.steps.budget_le.1

/-- A call that goes on with the run never adds to the budget. -/
theorem budget_call (s : Solver α) {c : Call α} (hc : c.Continues) :
    (s.call c).2.budget ≤ s.budget := by
  obtain ⟨n, _, hsolver⟩ := s.call_delivers hc
  rw [hsolver]
  exact budget_after n s

/-- **A driven run makes no more calls than there are pending records to come, and one.** -/
theorem Drives.length_le {hooks : Hooks σ α} {st : σ} {log : Log α} {d : Driven σ α}
    (h : Drives hooks st s log d) :
    (log.shown.map Except.ok ++ d.fault).length ≤ s.budget + 1 := by
  induction h with
  | broken hresult => exact Nat.le_add_left 1 _
  | optimal hresult _ => exact Nat.le_add_left 1 _
  | exhausted hresult _ => exact Nat.le_add_left 1 _
  | stopped hresult _ _ => exact Nat.le_add_left 1 _
  | @continued st s record log rest hresult hprogress hjudge _ ih =>
    have hopen : endsStream s.step.1.result = false :=
      endsStream_eq_false.mpr ⟨record, hresult, hprogress⟩
    exact Nat.succ_le_succ (ih.trans (s.steps.budget_le.2 hopen))

/-! ## The stream -/

/-- **The items of the stream** that calls ask for, in any order with other calls; the functions of
the program at each call are those beside it. -/
def items : List (Program α × Call α) → Solver α → List (Option (Except (Error α) (Record α)))
  | [], _ => []
  | (p, c) :: cs, s => ((s.under p).call c).1.item ++ items cs ((s.under p).call c).2

/-- The solver after these calls. -/
def reached : List (Program α × Call α) → Solver α → Solver α
  | [], s => s
  | (p, c) :: cs, s => reached cs ((s.under p).call c).2

/-- **A stream that ends once**: at most `bound + 1` items, of which only the last one may end it,
and nothing but silence after that one. -/
def EndsOnce (bound : ℕ) (items : List (Option (Except (Error α) (Record α)))) : Prop :=
  ∃ (yielded : List (Except (Error α) (Record α))) (silent : ℕ),
    items = yielded.map some ++ List.replicate silent none ∧
    yielded.length ≤ bound + 1 ∧
    (∀ result ∈ yielded.dropLast, endsStream result = false) ∧
    (silent ≠ 0 → ∃ result ∈ yielded.getLast?, endsStream result = true)

omit [Scalar α] in
theorem EndsOnce.mono {m n : ℕ} {items : List (Option (Except (Error α) (Record α)))}
    (h : EndsOnce m items) (hmn : m ≤ n) : EndsOnce n items := by
  obtain ⟨yielded, silent, hitems, hlength, hearlier, hlast⟩ := h
  exact ⟨yielded, silent, hitems, by omega, hearlier, hlast⟩

omit [Scalar α] in
/-- A pending record in front of a stream takes one from its bound. -/
theorem EndsOnce.cons {m n : ℕ} {items : List (Option (Except (Error α) (Record α)))}
    {result : Except (Error α) (Record α)} (h : EndsOnce m items) (hmn : m < n)
    (hresult : endsStream result = false) : EndsOnce n (some result :: items) := by
  obtain ⟨yielded, silent, rfl, hlength, hearlier, hlast⟩ := h
  refine ⟨result :: yielded, silent, rfl, by rw [List.length_cons]; omega, ?_, ?_⟩
  · cases yielded with
    | nil => exact List.forall_mem_nil _
    | cons first rest =>
      rw [List.dropLast_cons_cons]
      exact List.forall_mem_cons.mpr ⟨hresult, hearlier⟩
  · intro hsilent
    obtain ⟨last, hmem, hends⟩ := hlast hsilent
    refine ⟨last, ?_, hends⟩
    rw [List.getLast?_cons, Option.mem_def.mp hmem]
    rfl

/-- Once the stream has ended, there is silence. -/
theorem items_of_ended {cs : List (Program α × Call α)} (hcs : ∀ c ∈ cs, c.2.Continues)
    (s : Solver α) (hended : s.ended = true) :
    ∃ silent, s.items cs = List.replicate silent none := by
  induction cs generalizing s with
  | nil => exact ⟨0, rfl⟩
  | cons c cs ih =>
    obtain ⟨p, c⟩ := c
    obtain ⟨hc, hcs⟩ := List.forall_mem_cons.mp hcs
    have hstill : ((s.under p).call c).2.ended = true := by
      obtain ⟨n, _, hsolver⟩ := (s.under p).call_delivers hc
      rw [hsolver, ended_mark]
      exact congrArg (· || _) hended
    obtain ⟨silent, hitems⟩ := ih hcs _ hstill
    rw [items, hitems]
    cases c with
    | step => exact ⟨silent, rfl⟩
    | next =>
      have hnext : (s.under p).next = (none, s.under p) := if_pos hended
      refine ⟨silent + 1, ?_⟩
      rw [call, hnext]
      rfl
    | solve hooks st => exact ⟨silent, rfl⟩
    | restart x => exact hc.elim

/-- **What a call adds to a stream that goes on**: nothing, or a result that ends it or takes from
the budget. -/
theorem item_cases (s : Solver α) (hended : s.ended = false) {c : Call α} (hc : c.Continues) :
    (s.call c).1.item = [] ∧ (s.call c).2.ended = false ∨
    ∃ result, (s.call c).1.item = [some result] ∧ (s.call c).2.ended = endsStream result ∧
      (endsStream result = false → (s.call c).2.budget < s.budget) := by
  obtain ⟨n, _, hsolver⟩ := s.call_delivers hc
  have hends : (s.call c).2.ended = (s.call c).1.endsStream := by
    rw [hsolver, ended_mark, hended, Bool.false_or]
  cases c with
  | step => exact .inl ⟨rfl, hends⟩
  | next =>
    have hnext : s.next = (some s.step.1, s.step.2.mark (endsStream s.step.1.result)) :=
      if_neg (Bool.eq_false_iff.mp hended)
    simp only [call, hnext]
    exact .inr ⟨s.step.1.result, rfl, rfl, s.steps.budget_le.2⟩
  | solve hooks st => exact .inl ⟨rfl, hends⟩
  | restart x => exact hc.elim

/-- **The stream ends once**, within the budget. -/
theorem endsOnce_items {cs : List (Program α × Call α)} (hcs : ∀ c ∈ cs, c.2.Continues)
    (s : Solver α) (hended : s.ended = false) : EndsOnce s.budget (s.items cs) := by
  induction cs generalizing s with
  | nil => exact ⟨[], 0, rfl, Nat.zero_le _, List.forall_mem_nil _, fun h => absurd rfl h⟩
  | cons c cs ih =>
    obtain ⟨p, c⟩ := c
    obtain ⟨hc, hcs⟩ := List.forall_mem_cons.mp hcs
    rw [items]
    obtain ⟨hitem, hopen⟩ | ⟨result, hitem, hends, hbudget⟩ := (s.under p).item_cases hended hc
    · rw [hitem]
      exact (ih hcs _ hopen).mono ((s.under p).budget_call hc)
    · rw [hitem]
      cases hresult : endsStream result with
      | false => exact (ih hcs _ (hends.trans hresult)).cons (hbudget hresult) hresult
      | true =>
        obtain ⟨silent, hsilent⟩ := items_of_ended hcs _ (hends.trans hresult)
        rw [hsilent]
        exact ⟨[result], silent, rfl, Nat.le_add_left 1 _, List.forall_mem_nil _,
          fun _ => ⟨result, rfl, hresult⟩⟩

theorem budget_reached {cs : List (Program α × Call α)} (hcs : ∀ c ∈ cs, c.2.Continues)
    (s : Solver α) : (s.reached cs).budget ≤ s.budget := by
  induction cs generalizing s with
  | nil => exact le_rfl
  | cons c cs ih =>
    obtain ⟨hc, hcs⟩ := List.forall_mem_cons.mp hcs
    exact (ih hcs _).trans ((s.under c.1).budget_call hc)

theorem Begins.budget_eq (h : Begins p o x s) : s.budget = o.maxIterations ∧ s.ended = false := by
  obtain ⟨size, _, rfl⟩ := h.exists_start
  exact ⟨rfl, rfl⟩

/-- **The stream of records.**  Whatever the functions of the program do between two steps, and
steps that fail not counted: up to the first terminal record, every record keeps to the law
`Lawful`; after it, every step returns it again and leaves the solver as it finds it.  So the items
of the stream, asked for between any other calls, are at most one more than the iterations allowed,
the last one alone being terminal or an error, and nothing follows it; and a driven run comes to its
end after no more steps than that. -/
theorem record_stream (h : Begins p o x s) :
    (∀ programs : ℕ → Program α, (∀ k, (programs k).Alike p) → ∀ k record,
      s.returned programs k = .ok record →
      (∀ r ∈ s.records programs k, r.progress = .pending) →
      Lawful o x (s.records programs k) record (s.evolve programs (k + 1)) ∧
      (record.progress ≠ .pending → ∀ j, k < j → s.returned programs j = .ok record ∧
        s.evolve programs (j + 1) = (s.evolve programs j).under (programs j))) ∧
    ∀ cs : List (Program α × Call α), (∀ c ∈ cs, c.2.Continues) →
      EndsOnce o.maxIterations (s.items cs) ∧
      ∀ (σ : Type) (hooks : Hooks σ α) (st : σ), ∃ n ≤ o.maxIterations + 1,
        (s.reached cs).delivered (.solve hooks st) = (s.reached cs).results n ∧
        ((s.reached cs).solve hooks st).solver = (s.reached cs).after n := by
  obtain ⟨hbudget, hopen⟩ := h.budget_eq
  constructor
  · intro programs halike k record hresult hpending
    have hs := (h.standing_evolve halike k hpending).under (halike k)
    have hsteps := s.steps_evolve programs k
    rw [hresult] at hsteps
    obtain ⟨u, hu, hexamine⟩ := hs.exists_unseen hsteps
    refine ⟨hu.lawful hexamine, ?_⟩
    intro hterminal j hj
    have hfinished := finished_evolve (hexamine.finished_of_terminal hterminal) (j - (k + 1))
    rw [Nat.add_sub_cancel' hj] at hfinished
    have hstep := step_of_finished (s := (s.evolve programs j).under (programs j)) hfinished
    refine ⟨?_, ?_⟩
    · rw [returned, hstep, Traced.result_pure]
    · rw [evolve, hstep]
  · intro cs hcs
    refine ⟨hbudget ▸ endsOnce_items hcs s hopen, ?_⟩
    intro σ hooks st
    have hdrives := drives hooks st (s.reached cs)
    obtain ⟨n, hresults, hsolver⟩ := hdrives.delivers
    refine ⟨n, ?_, hresults, hsolver⟩
    calc n = ((s.reached cs).results n).length := (length_results n _).symm
      _ ≤ (s.reached cs).budget + 1 := hresults ▸ hdrives.length_le
      _ ≤ o.maxIterations + 1 := Nat.succ_le_succ ((budget_reached hcs s).trans hbudget.le)

/-! ## A run with a step that fails once -/

/-- Half the square of one variable, except that its value is refused at the second step. -/
def flakyPrograms (k : ℕ) : Program Float :=
  if k = 1 then { bowlProgram with objective := fun x => .error (.invalidShape x.rows x.cols) }
  else bowlProgram

/-- A run at its beginning. -/
def flakySolver : Solver Float := start bowlProgram .default ⟨1, []⟩ bowlProgram.initialGuess

/-- The second step fails, the third one goes on from where the first one was, and its record has
the number `1`; the stream that was asked for in the meantime has ended at the error. -/
theorem record_stream_flaky :
    ((flakySolver.returned flakyPrograms 1).toOption.isSome = false ∧
      ∃ record, flakySolver.returned flakyPrograms 2 = .ok record ∧ record.progress = .success ∧
        record.iteration = 1 ∧ ∀ j, 2 < j → flakySolver.returned flakyPrograms j = .ok record) ∧
    EndsOnce 300 (flakySolver.items [(bowlProgram, .next), (flakyPrograms 1, .next),
      (bowlProgram, .step), (bowlProgram, .next)]) := by
  have hbegins : Begins bowlProgram Options.default bowlProgram.initialGuess flakySolver :=
    .inl rfl
  have halike (k : ℕ) : (flakyPrograms k).Alike bowlProgram := by
    rw [flakyPrograms]
    split <;> rfl
  obtain ⟨hlaw, hstream⟩ := record_stream hbegins
  refine ⟨⟨by decide +kernel, ?_⟩, ?_⟩
  · have hsuccess : (flakySolver.returned flakyPrograms 2).toOption.any
        (fun record => decide (record.progress = .success)) = true := by decide +kernel
    have hpending : (flakySolver.records flakyPrograms 2).all
        (fun record => decide (record.progress = .pending)) = true := by decide +kernel
    have hcount : (flakySolver.records flakyPrograms 2).length = 1 := by decide +kernel
    rcases hresult : flakySolver.returned flakyPrograms 2 with err | record
    · rw [hresult] at hsuccess
      cases hsuccess
    · rw [hresult] at hsuccess
      have hprogress : record.progress = .success := of_decide_eq_true hsuccess
      obtain ⟨hlawful, hagain⟩ := hlaw flakyPrograms halike 2 record hresult fun r hr =>
        of_decide_eq_true (List.all_eq_true.mp hpending r hr)
      refine ⟨record, rfl, hprogress, hlawful.number.trans hcount, fun j hj => (hagain ?_ j hj).1⟩
      rw [hprogress]
      decide
  · refine (hstream _ ?_).1
    simp [Call.Continues]

end Solver

end InteriorPoint
