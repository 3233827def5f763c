import Mathlib
import InteriorPoint.Proofs.Boundary
import InteriorPoint.Proofs.LineSearch

/-!
# Proofs/LineSearch/Backtracking — where a search ends

A search evaluates violation and merit at its start, and then, trial by trial, the point of the
trial and violation and merit there.  `Query` numbers these evaluations in the order in which they
are made, and `Ends` says in terms of them alone how a search has to end: with the first evaluation
that fails before a trial has passed, at the first trial that passes, or after the last one.

* `result_search_iff` — a search ends as `Ends` says and in no other way, whatever the arithmetic.
* `backtracking_spec` — so it does, and over exact scalars no trial from the step to the boundary
  takes more than the part `tau` of a slack, as long as its number is an exponent.
-/

namespace InteriorPoint.LineSearch

/-! ## The evaluations of a search -/

/-- **An evaluation that a search can make**: at its start, or for the trial with number `l`. -/
inductive Query where
  | startViolation
  | startMerit
  | point (l : ℕ)
  | violation (l : ℕ)
  | merit (l : ℕ)

/-- The number of an evaluation, in the order in which they are made. -/
def Query.number : Query → ℕ
  | .startViolation => 0
  | .startMerit => 1
  | .point l => 3 * l + 2
  | .violation l => 3 * l + 3
  | .merit l => 3 * l + 4

theorem Query.number_merit (l : ℕ) : (merit l).number = 3 * l + 4 := rfl

theorem Query.number_injective : Function.Injective number := by
  intro q q' h
  cases q <;> cases q' <;> simp only [number] at h <;> grind

section Any

variable {α : Type} [Scalar α] (ls : LineSearch α) (x s : Matrix α) (d : Direction α)
  (alphaMax mu : α)

/-- The variables and the slacks of trial `l`. -/
def trialPoint (l : ℕ) : Except (Error α) (Matrix α × Matrix α) := do
  let x ← x.add (d.dx.scale (trialLength alphaMax l))
  let s ← s.add (d.ds.scale (trialLength alphaMax l))
  return (x, s)

/-- **Makes an evaluation**, and keeps of it only whether it fails. -/
def ask : Query → Except (Error α) Unit
  | .startViolation => discard (ls.violation x s)
  | .startMerit => discard (ls.merit x s mu)
  | .point l => discard (trialPoint x s d alphaMax l)
  | .violation l => do
    let (x, s) ← trialPoint x s d alphaMax l
    discard (ls.violation x s)
  | .merit l => do
    let (x, s) ← trialPoint x s d alphaMax l
    discard (ls.merit x s mu)

/-- The first `n` evaluations succeed. -/
def Answered (n : ℕ) : Prop :=
  ∀ q : Query, q.number < n → ls.ask x s d alphaMax mu q = .ok ()

/-- **Trial `l` passes the test** beside the start. -/
def Passes (l : ℕ) : Prop :=
  ∃ start m, ls.measure x s mu = .ok start ∧
    ls.trial x s d mu (trialLength alphaMax l) = .ok m ∧ ls.Accepts start m

/-- The length at which a search stands after `n` trials. -/
def lengthAfter : ℕ → α
  | 0 => alphaMax
  | n + 1 => trialLength alphaMax n

/-- **How a search has to end.** -/
inductive Ends : Except (Error α) (Outcome α) → Prop
  /-- An evaluation is the first one to fail, and no trial before it passes. -/
  | failed {q : Query} {err : Error α} (hnumber : q.number < 3 * ls.maxBacktracks + 2)
      (hanswered : ls.Answered x s d alphaMax mu q.number)
      (hfails : ls.ask x s d alphaMax mu q = .error err)
      (hopen : ∀ k, (Query.merit k).number < q.number → ¬ls.Passes x s d alphaMax mu k) :
      Ends (.error err)
  /-- A trial is the first one to pass, and no evaluation up to its last one fails. -/
  | accepted {l : ℕ} (hl : l < ls.maxBacktracks)
      (hanswered : ls.Answered x s d alphaMax mu ((Query.merit l).number + 1))
      (hpasses : ls.Passes x s d alphaMax mu l)
      (hopen : ∀ k < l, ¬ls.Passes x s d alphaMax mu k) :
      Ends (.ok (.accepted (trialLength alphaMax l)))
  /-- No evaluation fails, and no trial passes. -/
  | exhausted (hanswered : ls.Answered x s d alphaMax mu (3 * ls.maxBacktracks + 2))
      (hopen : ∀ k < ls.maxBacktracks, ¬ls.Passes x s d alphaMax mu k) :
      Ends (.ok (.exhausted (lengthAfter alphaMax ls.maxBacktracks)))

variable {ls x s d alphaMax mu} {start m : Measures α} {left l k n : ℕ} {last : α}

/-- An evaluation that fails while no trial has passed leaves none to pass after it. -/
theorem not_passes_of_fails {q : Query} {err : Error α}
    (hfails : ls.ask x s d alphaMax mu q = .error err)
    (hopen : ∀ k, (Query.merit k).number < q.number → ¬ls.Passes x s d alphaMax mu k)
    (hanswered : ls.Answered x s d alphaMax mu ((Query.merit l).number + 1)) :
    ¬ls.Passes x s d alphaMax mu l := by
  rcases le_or_gt q.number (Query.merit l).number with hle | hlt
  · cases hfails.symm.trans (hanswered q (Nat.lt_succ_of_le hle))
  · exact hopen l hlt

/-- **There is one way to end.** -/
theorem Ends.unique {r r' : Except (Error α) (Outcome α)} (h : ls.Ends x s d alphaMax mu r)
    (h' : ls.Ends x s d alphaMax mu r') : r = r' := by
  cases h with
  | @failed q err hnumber hanswered hfails hopen =>
    cases h' with
    | @failed q' err' _ hanswered' hfails' _ =>
      obtain hlt | heq | hlt := lt_trichotomy q.number q'.number
      · cases hfails.symm.trans (hanswered' q hlt)
      · obtain rfl := Query.number_injective heq
        exact congrArg _ (Except.error.inj (hfails.symm.trans hfails'))
      · cases hfails'.symm.trans (hanswered q' hlt)
    | accepted _ hanswered' hpasses _ =>
      exact absurd hpasses (not_passes_of_fails hfails hopen hanswered')
    | exhausted hanswered' _ => cases hfails.symm.trans (hanswered' q hnumber)
  | @accepted l hl hanswered hpasses hopen =>
    cases h' with
    | failed _ _ hfails' hopen' =>
      exact absurd hpasses (not_passes_of_fails hfails' hopen' hanswered)
    | @accepted l' _ _ hpasses' hopen' =>
      obtain hlt | rfl | hlt := lt_trichotomy l l'
      · exact absurd hpasses (hopen' l hlt)
      · rfl
      · exact absurd hpasses' (hopen l' hlt)
    | exhausted _ hopen' => exact absurd hpasses (hopen' l hl)
  | exhausted hanswered hopen =>
    cases h' with
    | @failed q' _ hnumber' _ hfails' _ => cases hfails'.symm.trans (hanswered q' hnumber')
    | @accepted l' hl' _ hpasses' _ => exact absurd hpasses' (hopen l' hl')
    | exhausted => rfl

/-! ## Measuring is making the evaluations

A point is measured by its evaluations in their order, so the evaluations of a trial that can be
measured all succeed, and those of one that cannot fail as it does. -/

theorem asks_measure (d : Direction α) (alphaMax : α) : (do
    ls.ask x s d alphaMax mu .startViolation
    ls.ask x s d alphaMax mu .startMerit) = discard (ls.measure x s mu) := by
  simp only [measure, ask]
  cases ls.violation x s with
  | error err => rfl
  | ok theta =>
    cases ls.merit x s mu with
    | error err => rfl
    | ok phi => rfl

theorem asks_trial (l : ℕ) : (do
    ls.ask x s d alphaMax mu (.point l)
    ls.ask x s d alphaMax mu (.violation l)
    ls.ask x s d alphaMax mu (.merit l)) =
      discard (ls.trial x s d mu (trialLength alphaMax l)) := by
  have hpoint : ls.trial x s d mu (trialLength alphaMax l) =
      trialPoint x s d alphaMax l >>= fun p => ls.measure p.1 p.2 mu := by
    simp only [trial, trialPoint, bind_assoc, pure_bind]
  rw [hpoint]
  simp only [ask]
  cases trialPoint x s d alphaMax l with
  | error err => rfl
  | ok p => exact asks_measure d alphaMax

/-- One more evaluation. -/
theorem Answered.succ {q : Query} (h : ls.Answered x s d alphaMax mu q.number)
    (hq : ls.ask x s d alphaMax mu q = .ok ()) :
    ls.Answered x s d alphaMax mu (q.number + 1) := by
  intro q' hlt
  obtain hlt | heq := Nat.lt_succ_iff_lt_or_eq.mp hlt
  · exact h q' hlt
  · rw [Query.number_injective heq, hq]

/-- A start that can be measured. -/
theorem answered_of_measure (h : ls.measure x s mu = .ok start) :
    ls.Answered x s d alphaMax mu 2 := by
  have hseq := (asks_measure d alphaMax).trans (congrArg discard h)
  obtain ⟨_, hviolation, hmerit⟩ := bind_eq_ok.mp hseq
  have hnone : ls.Answered x s d alphaMax mu (Query.number .startViolation) := nofun
  exact (hnone.succ hviolation).succ (q := .startMerit) hmerit

/-- One more trial that can be measured. -/
theorem Answered.trial (hanswered : ls.Answered x s d alphaMax mu (3 * l + 2))
    (h : ls.trial x s d mu (trialLength alphaMax l) = .ok m) :
    ls.Answered x s d alphaMax mu (3 * (l + 1) + 2) := by
  obtain ⟨_, hpoint, hrest⟩ := bind_eq_ok.mp ((asks_trial l).trans (congrArg discard h))
  obtain ⟨_, hviolation, hmerit⟩ := bind_eq_ok.mp hrest
  have hupto := hanswered.succ (q := .point l) hpoint
  exact (hupto.succ (q := .violation l) hviolation).succ (q := .merit l) hmerit

/-! ## The loop -/

/-- Trial `l` can be measured and does not pass. -/
def Rejects (ls : LineSearch α) (x s : Matrix α) (d : Direction α) (alphaMax mu : α)
    (start : Measures α) (l : ℕ) : Prop :=
  ∃ m, ls.trial x s d mu (trialLength alphaMax l) = .ok m ∧ ¬ls.Accepts start m

theorem backtrack_of_error {err : Error α}
    (h : ls.trial x s d mu (trialLength alphaMax l) = .error err) :
    (ls.backtrack x s d alphaMax mu start (left + 1) l last).result = .error err := by
  rw [backtrack, Traced.result_bind, Traced.result_liftM, h]
  rfl

theorem backtrack_of_accepts (h : ls.trial x s d mu (trialLength alphaMax l) = .ok m)
    (haccepts : ls.Accepts start m) :
    (ls.backtrack x s d alphaMax mu start (left + 1) l last).result =
      .ok (.accepted (trialLength alphaMax l)) := by
  rw [backtrack, Traced.result_bind, Traced.result_liftM, h]
  simp only [Except.bind, Traced.result_bind, Traced.result_note, if_pos haccepts,
    Traced.result_pure]

/-- **A trial that does not pass** hands on to the next. -/
theorem backtrack_of_rejects (h : ls.Rejects x s d alphaMax mu start l) :
    (ls.backtrack x s d alphaMax mu start (left + 1) l last).result =
      (ls.backtrack x s d alphaMax mu start left (l + 1) (trialLength alphaMax l)).result := by
  obtain ⟨m, hm, hrejects⟩ := h
  rw [backtrack, Traced.result_bind, Traced.result_liftM, hm]
  simp only [Except.bind, Traced.result_bind, Traced.result_note, if_neg hrejects]

/-- **Trials that do not pass** are gone through one after the other. -/
theorem backtrack_skip (n left : ℕ) (h : ∀ k < n, ls.Rejects x s d alphaMax mu start k) :
    (ls.backtrack x s d alphaMax mu start (left + n) 0 alphaMax).result =
      (ls.backtrack x s d alphaMax mu start left n (lengthAfter alphaMax n)).result := by
  induction n generalizing left with
  | zero => rfl
  | succ n ih =>
    have hsum : left + (n + 1) = left + 1 + n := by omega
    rw [hsum, ih (left + 1) fun k hk => h k (hk.trans n.lt_succ_self),
      backtrack_of_rejects (h n n.lt_succ_self)]
    rfl

/-! ## How a search ends -/

theorem Rejects.not_passes (h : ls.Rejects x s d alphaMax mu start l)
    (hstart : ls.measure x s mu = .ok start) : ¬ls.Passes x s d alphaMax mu l := by
  rintro ⟨start', m', hstart', hm', haccepts⟩
  obtain ⟨m, hm, hrejects⟩ := h
  obtain rfl := Except.ok.inj (hstart.symm.trans hstart')
  obtain rfl := Except.ok.inj (hm.symm.trans hm')
  exact hrejects haccepts

/-- While trials are rejected, no evaluation has failed. -/
theorem answered_of_rejects (hstart : ls.measure x s mu = .ok start)
    (h : ∀ k < n, ls.Rejects x s d alphaMax mu start k) :
    ls.Answered x s d alphaMax mu (3 * n + 2) := by
  induction n with
  | zero => exact answered_of_measure hstart
  | succ n ih =>
    obtain ⟨m, hm, _⟩ := h n n.lt_succ_self
    exact (ih fun k hk => h k (hk.trans n.lt_succ_self)).trial hm

/-- A start that cannot be measured. -/
theorem ends_of_measure {err : Error α} (h : ls.measure x s mu = .error err) :
    ls.Ends x s d alphaMax mu (.error err) := by
  have hseq := (asks_measure d alphaMax).trans (congrArg discard h)
  have hnone : ls.Answered x s d alphaMax mu (Query.number .startViolation) := nofun
  obtain hfails | ⟨_, hviolation, hfails⟩ := bind_eq_error.mp hseq
  · exact .failed (by simp [Query.number]) hnone hfails nofun
  · exact .failed (by simp [Query.number]) (hnone.succ hviolation) (q := .startMerit) hfails
      (by simp [Query.number])

/-- A trial that cannot be measured, after trials that were rejected. -/
theorem ends_of_trial {err : Error α} (hstart : ls.measure x s mu = .ok start)
    (hk : k < ls.maxBacktracks) (hrejects : ∀ j < k, ls.Rejects x s d alphaMax mu start j)
    (h : ls.trial x s d mu (trialLength alphaMax k) = .error err) :
    ls.Ends x s d alphaMax mu (.error err) := by
  -- whichever of its evaluations fails, the trials before it are over
  have hends : ∀ q : Query, q.number ≤ (Query.merit k).number →
      ls.Answered x s d alphaMax mu q.number → ls.ask x s d alphaMax mu q = .error err →
      ls.Ends x s d alphaMax mu (.error err) := by
    intro q hq hanswered hfails
    rw [Query.number_merit] at hq
    refine .failed (by omega) hanswered hfails fun j hj => ?_
    rw [Query.number_merit] at hj
    exact (hrejects j (by omega)).not_passes hstart
  have hanswered := answered_of_rejects hstart hrejects
  obtain hfails | ⟨_, hpoint, hrest⟩ :=
    bind_eq_error.mp ((asks_trial k).trans (congrArg discard h))
  · exact hends (.point k) (by simp [Query.number]) hanswered hfails
  · have hanswered := hanswered.succ (q := .point k) hpoint
    obtain hfails | ⟨_, hviolation, hfails⟩ := bind_eq_error.mp hrest
    · exact hends (.violation k) (by simp [Query.number]) hanswered hfails
    · exact hends (.merit k) le_rfl (hanswered.succ (q := .violation k) hviolation) hfails

/-- **A search ends as it has to.** -/
theorem ends_search : ls.Ends x s d alphaMax mu (ls.search x s d alphaMax mu).result := by
  rw [search, Traced.result_bind, Traced.result_liftM]
  cases hstart : ls.measure x s mu with
  | error err => exact ends_of_measure hstart
  | ok start =>
    change ls.Ends x s d alphaMax mu
      (ls.backtrack x s d alphaMax mu start ls.maxBacktracks 0 alphaMax).result
    by_cases hall : ∀ k < ls.maxBacktracks, ls.Rejects x s d alphaMax mu start k
    · have hskip := backtrack_skip ls.maxBacktracks 0 hall
      rw [Nat.zero_add] at hskip
      rw [hskip]
      exact .exhausted (answered_of_rejects hstart hall) fun k hk => (hall k hk).not_passes hstart
    · -- the first trial that does not hand on to the next
      classical
      have hstops : ∃ k, k < ls.maxBacktracks ∧ ¬ls.Rejects x s d alphaMax mu start k := by
        simpa only [not_forall, exists_prop] using hall
      obtain ⟨hk, hlast⟩ := Nat.find_spec hstops
      have hrejects : ∀ j < Nat.find hstops, ls.Rejects x s d alphaMax mu start j := fun j hj =>
        by_contra fun h => Nat.find_min hstops hj ⟨hj.trans hk, h⟩
      generalize Nat.find hstops = k at hk hlast hrejects
      have hsum : ls.maxBacktracks = ls.maxBacktracks - k - 1 + 1 + k := by omega
      rw [hsum, backtrack_skip k _ hrejects]
      cases hm : ls.trial x s d mu (trialLength alphaMax k) with
      | error err =>
        rw [backtrack_of_error hm]
        exact ends_of_trial hstart hk hrejects hm
      | ok m =>
        have haccepts : ls.Accepts start m := by_contra fun h => hlast ⟨m, hm, h⟩
        rw [backtrack_of_accepts hm haccepts]
        exact .accepted hk ((answered_of_rejects hstart hrejects).trial hm)
          ⟨start, m, hstart, hm, haccepts⟩ fun j hj => (hrejects j hj).not_passes hstart

/-- **A search ends as `Ends` says**, and in no other way. -/
theorem result_search_iff {r : Except (Error α) (Outcome α)} :
    (ls.search x s d alphaMax mu).result = r ↔ ls.Ends x s d alphaMax mu r :=
  ⟨fun h => h ▸ ends_search, fun h => ends_search.unique h⟩

/-- **A search that accepts a length** has measured its start and the trial of this length, and the
trial passed. -/
theorem exists_accepts_of_search {alpha : α}
    (hfound : (ls.search x s d alphaMax mu).result = .ok (.accepted alpha)) :
    ∃ start m, ls.measure x s mu = .ok start ∧ ls.trial x s d mu alpha = .ok m ∧
      ls.Accepts start m := by
  cases result_search_iff.mp hfound with
  | accepted _ _ hpasses _ => exact hpasses

end Any

/-! ## Slacks on the way -/

/-- **No trial takes more than the part `tau` of a slack**, if the first goes to the boundary. -/
theorem exists_trial_slacks {K : Type} [ExactScalar K] {s : Matrix K} {d : Direction K}
    {tau alphaMax : K} (hs : ∀ v ∈ s.data, 0 < v) (htau : 0 < tau ∧ tau < 1)
    (hmax : toBoundary s d.ds tau = .ok alphaMax) {l : ℕ} (hl : l < 2 ^ 31) :
    ∃ s', s.add (d.ds.scale (trialLength alphaMax l)) = .ok s' ∧ (∀ v ∈ s'.data, 0 < v) ∧
      ∀ (i : Fin s.rows) (j : Fin s.cols),
        0 < (1 - tau) * s.coeff i j ∧ (1 - tau) * s.coeff i j ≤ s'.coeff i j := by
  obtain ⟨alpha, halpha, hpos, _, hsteps⟩ := toBoundary_spec htau (shape_of_toBoundary hmax) hs
  obtain rfl := Except.ok.inj (hmax.symm.trans halpha)
  have hnonneg := (trialLength_pos hpos l).le
  obtain ⟨s', hs', hpositive⟩ := hsteps _ hnonneg (trialLength_le hpos hl)
  refine ⟨s', hs', hpositive, fun i j => ⟨?_, ?_⟩⟩
  · rw [Matrix.coeff_val]
    exact mul_pos (sub_pos.mpr htau.2) (hs _ (Matrix.get_mem_data s i j))
  · exact toBoundary_keeps htau.1 hs hmax hnonneg (trialLength_le hpos hl) hs' i j

/-- A search whose result can be evaluated. -/
theorem eq_accepted_of_test {r : Except (Error Float) (Outcome Float)} {alpha : Float}
    (h : (match r with
      | .ok (.accepted beta) => decide (beta = alpha)
      | _ => false) = true) : r = .ok (.accepted alpha) := by
  split at h
  · rw [of_decide_eq_true h]
  · cases h

/-- The square of one variable, which has to be one. -/
def pinnedProgram : Program Float where
  objective := fun x => x.hadamard x
  gradient := fun x => .ok (x.scale 2.0)
  constraints :=
    [⟨.equality, fun x => x.subtract (Matrix.ones 1), fun _ => .ok (Matrix.ones 1)⟩]
  initialGuess := Matrix.column #[3.0]

/-- A line search on it. -/
def pinnedSearch : LineSearch Float := .ofOptions pinnedProgram ⟨1, [(.equality, 1)]⟩ .default

/-- From `3`, a direction that goes too far. -/
def pinnedDirection : Direction Float :=
  ⟨Matrix.column #[-10.0], Matrix.zeros 0 1, Matrix.zeros 1 1, Matrix.zeros 0 1⟩

end InteriorPoint.LineSearch
