import Mathlib
import InteriorPoint.Proofs.LineSearch
import InteriorPoint.Proofs.Newton.Solvability
import InteriorPoint.Proofs.Solver.Refusal

/-!
# Proofs/Solver/Progress — exact arithmetic stops only at dependent equalities

Over exact scalars the model of curvature stays positive definite along every run
(`Reachable.isPosDef`), and slacks and multipliers stay positive.  So if the program answers every
question, each part of a Newton step succeeds but the linear system, and that has a solution exactly
if the rows of the equality Jacobian are independent.

* `step_progress` — a Newton step that is due is stored, or these rows are dependent and the system
  is found singular, unless the line search tried more lengths than it has exponents for.
-/

namespace InteriorPoint.Solver

/-! ## What a step leaves behind -/

section Calls

variable {α : Type} [Scalar α] {s t : Solver α} {e : Evaluation α} {r : Residual α}

theorem Examines.size_eq {result : Except (Error α) (Record α)} (h : Examines s result t) :
    t.size = s.size ∧ t.iterations = s.iterations := by
  cases h <;> exact ⟨rfl, rfl⟩

/-- A call keeps the dimensions that a run began with. -/
theorem Steps.size_eq {result : Except (Error α) (Record α)} (h : Steps s result t) :
    t.size = s.size := by
  cases h with
  | finished hphase => rfl
  | examined hphase hexamine => exact hexamine.size_eq.1
  | refused hphase hadvance => rfl
  | advanced hphase hadvance hexamine => exact hexamine.size_eq.1

/-- The dimensions of a reachable solver were learned at some point. -/
theorem Reachable.measured {p : Program α} {o : Options α} (h : Reachable p o s) :
    ∃ x, Size.compute p x = .ok s.size := by
  refine h.holds_settled (I := fun s => ∃ x, Size.compute p x = .ok s.size)
    (fun x _ hsize => ⟨x, hsize⟩) ?_ (fun _ _ hs => hs)
  rintro s _ ⟨x, hx⟩
  rw [s.steps.size_eq]
  exact ⟨x, hx⟩

/-- After a pending record a step is due. -/
def Due (s : Solver α) : Prop :=
  ∀ record, s.last = some record → record.progress = .pending → ∃ e r, s.phase = .stepping e r

theorem Examines.due {record : Record α} (h : Examines s (.ok record) t) : t.Due := by
  rintro record' hlast hpending
  cases h with
  | exhausted hmax =>
    cases hlast
    cases hpending
  | converged hmax hassess hopt =>
    cases hlast
    cases hpending
  | pending hmax hassess hopt => exact ⟨_, _, rfl⟩

/-- A call that fails changes nothing, and one that does not ends with a look at the iterate. -/
theorem Steps.due (hs : Settled s) (hdue : s.Due) {result : Except (Error α) (Record α)}
    (h : Steps s result t) : t.Due := by
  rcases result with err | record
  · rw [h.eq_of_error hs]
    exact hdue
  · cases h with
    | finished hphase => exact hdue
    | examined hphase hexamine => exact hexamine.due
    | advanced hphase hadvance hexamine => exact hexamine.due

theorem Reachable.due {p : Program α} {o : Options α} (h : Reachable p o s) : s.Due :=
  h.holds_settled (fun _ _ _ => nofun) (fun s hs hdue => s.steps.due hs hdue) (fun _ _ hs => hs)

/-- **A Newton step that goes through is stored**, and the call gives a record. -/
theorem Steps.of_advance {it : Iterate α} {next : Evaluation α}
    {result : Except (Error α) (Record α)} (hs : Settled s) (hphase : s.phase = .stepping e r)
    (hadvance : (s.advance e r).result = .ok (it, next)) (h : Steps s result t) :
    (∃ record, result = .ok record) ∧ t.iterate = it ∧ t.iterations = s.iterations + 1 := by
  constructor
  · rcases result with err | record
    · exact nomatch hadvance.symm.trans (h.advance_of_error hs e r hphase)
    · exact ⟨record, rfl⟩
  · cases h with
    | finished hphase' => exact nomatch hphase.symm.trans hphase'
    | examined hphase' _ => exact nomatch hphase.symm.trans hphase'
    | refused hphase' hadvance' =>
      cases hphase.symm.trans hphase'
      exact nomatch hadvance.symm.trans hadvance'
    | advanced hphase' hadvance' hexamine =>
      cases hphase.symm.trans hphase'
      cases hadvance.symm.trans hadvance'
      exact ⟨hexamine.iterate_eq, hexamine.size_eq.2⟩

/-- The record is one on the new iterate. -/
theorem step_of_advance {it : Iterate α} {next : Evaluation α}
    (hphase : s.phase = .stepping e r) (hadvance : (s.advance e r).result = .ok (it, next)) :
    s.step.1.result = (s.commit it next).examine.1.result ∧
      s.step.2 = (s.commit it next).examine.2 := by
  rcases htraced : s.advance e r with ⟨events, result⟩
  rw [htraced] at hadvance
  obtain rfl : result = .ok (it, next) := hadvance
  simp only [step, hphase, htraced, and_self]

/-- As long as steps are left, a look at the iterate reports no failure. -/
theorem Examines.progress_ne_failed {record : Record α} (h : Examines s (.ok record) t)
    (hleft : s.iterations < s.options.maxIterations) : record.progress ≠ .failed := by
  cases h with
  | exhausted hmax => exact absurd hleft (Nat.not_lt.mpr hmax)
  | converged => nofun
  | pending => nofun

end Calls

/-! ## Exact scalars -/

variable {K : Type} [ExactScalar K] {s t : Solver K} {e next : Evaluation K} {r : Residual K}

/-- **The next model of curvature is found, and positive definite.** -/
theorem exists_nextCurvature {it : Iterate K} {x y z : Matrix K} {n p k : ℕ}
    (hit : it.Fits n p k) (he : e.Fits n p k) (hnext : next.Fits n p k) (hx : x.shape = (n, 1))
    (hy : y.shape = (p, 1)) (hz : z.shape = (k, 1)) (hB : Curvature.IsPosDef it.curvature n) :
    ∃ c, nextCurvature it e next x y z = .ok c ∧ Curvature.IsPosDef c n := by
  obtain ⟨d, change, hds, hchanges, heq⟩ := exists_nextCurvature_eq hit he hnext hx hy hz
  rw [heq]
  split
  · exact ⟨_, rfl, hB⟩
  · rename_i hnull
    exact Curvature.exists_update hB hds hchanges fun h => hnull ((Curvature.isNull_iff hds).mpr h)

/-- The model of curvature stays positive definite along a step that is stored. -/
theorem Settled.isPosDef_of_advance {it : Iterate K} (hs : Settled s)
    (hB : Curvature.IsPosDef s.iterate.curvature s.size.vars) (hphase : s.phase = .stepping e r)
    (h : (s.advance e r).result = .ok (it, next)) :
    Curvature.IsPosDef it.curvature s.size.vars := by
  obtain ⟨he, _, _⟩ := hs.toConsistent.fits_of_assessed (hs.stepping e r hphase)
  obtain ⟨_, _, hit, _⟩ := hs.toConsistent.commit h
  obtain ⟨_, _, _, _, _, _, _, _, _, _, _, _, _, _, hnext, hcurvature⟩ := advance_eq_ok h
  obtain ⟨c, hc, hpos⟩ := exists_nextCurvature hs.fits he
    (Evaluation.fits_of_compute hs.measures hnext) hit.x hit.y hit.z hB
  obtain rfl := Except.ok.inj (hcurvature.symm.trans hc)
  exact hpos

/-- A call keeps the model of curvature positive definite. -/
theorem Steps.isPosDef {result : Except (Error K) (Record K)} (hs : Settled s)
    (hB : Curvature.IsPosDef s.iterate.curvature s.size.vars) (h : Steps s result t) :
    Curvature.IsPosDef t.iterate.curvature t.size.vars := by
  rw [h.size_eq]
  obtain heq | ⟨_, _, _, hphase, hadvance⟩ := h.iterate_cases
  · rw [heq]
    exact hB
  · exact hs.isPosDef_of_advance hB hphase hadvance

/-- **The model of curvature of a reachable solver is positive definite.** -/
theorem Reachable.isPosDef {p : Program K} {o : Options K} (h : Reachable p o s) :
    Curvature.IsPosDef s.iterate.curvature s.size.vars :=
  h.holds_settled (I := fun s => Curvature.IsPosDef s.iterate.curvature s.size.vars)
    (fun _ size _ => Curvature.isPosDef_identity size.vars)
    (fun s hs hB => s.steps.isPosDef hs hB) (fun _ _ hs => hs)

/-! ## A step that is due -/

/-- Over exact scalars an evaluation fails only with a fault of the program. -/
theorem exists_compute {p : Program K} {size : Size} {x : Matrix K}
    (h : ∀ err, ¬p.Fault size x err) : ∃ e, Evaluation.compute p size x = .ok e := by
  rcases hcompute : Evaluation.compute p size x with err | e
  · obtain hfault | ⟨_, v, _, hv⟩ := Evaluation.fault_of_compute hcompute
    · exact absurd hfault (h err)
    · exact nomatch hv
  · exact ⟨e, rfl⟩

theorem vec_pos_of_shape {m : Matrix K} {n : ℕ} (hm : m.shape = (n, 1)) (h : ∀ v ∈ m.data, 0 < v)
    (i : Fin n) : 0 < m.vec n i := by
  refine h _ (Array.mem_toList_iff.mp ?_)
  rw [Matrix.toList_data_of_shape hm]
  exact List.mem_map_of_mem (List.mem_finRange i)

/-- The program answers every question at every point with an entry per variable. -/
def Answered (s : Solver K) : Prop :=
  ∀ x err, x.shape = (s.size.vars, 1) → ¬s.program.Fault s.size x err

/-- A look at the iterate of a program that answers every question succeeds. -/
theorem Consistent.exists_assess_of_answered (hs : Consistent s) (hanswered : s.Answered) :
    ∃ e r, s.assess = .ok (e, r) := by
  rcases hknown : s.known with _ | e
  · obtain ⟨e, he⟩ := exists_compute fun err => hanswered s.iterate.x err hs.fits.x
    obtain ⟨r, hr⟩ := Residual.exists_compute (Evaluation.fits_of_compute hs.measures he) hs.fits.s
      hs.fits.y hs.fits.z
    refine ⟨e, r, ?_⟩
    simp only [assess, hknown, he, hr, ok_bind]
    rfl
  · exact ⟨e, hs.exists_assess hknown⟩

/-- A line search along a direction that fits is never refused. -/
theorem Settled.exists_search {d : Direction K} (hs : Settled s) (hanswered : s.Answered)
    (hd : d.Fits s.size.vars s.size.equalities s.size.inequalities) (alphaMax mu : K) :
    ∃ found, ((LineSearch.ofOptions s.program s.size s.options).search s.iterate.x s.iterate.s d
      alphaMax mu).result = .ok found := by
  rcases hsearch : ((LineSearch.ofOptions s.program s.size s.options).search s.iterate.x s.iterate.s
    d alphaMax mu).result with err | found
  · obtain h | ⟨alpha, x, hx, h⟩ := LineSearch.fault_of_search (by exact hs.measures)
      (by exact hs.fits.s) (hd.dx.trans hs.fits.x.symm) (hd.ds.trans hs.fits.s.symm) hsearch
    · exact absurd h (hanswered _ err hs.fits.x)
    · exact absurd h (hanswered x err ((Matrix.shape_of_zipWith?_eq_ok hx).trans hs.fits.x))
  · exact ⟨found, rfl⟩

/-- **A Newton step of which everything is found** up to the new slacks and multipliers. -/
theorem advance_of_found {d : Direction K} {alphaMax alphaDual : K} {found : LineSearch.Outcome K}
    {x slacks y z : Matrix K}
    (hd : s.system.direction s.iterate e r
      ((Barrier.ofOptions s.options).update r s.iterate.mu) = .ok d)
    (hmax : toBoundary s.iterate.s d.ds s.options.fractionToBoundary = .ok alphaMax)
    (hdual : toBoundary s.iterate.z d.dz s.options.fractionToBoundary = .ok alphaDual)
    (hfound : ((LineSearch.ofOptions s.program s.size s.options).search s.iterate.x s.iterate.s d
      alphaMax ((Barrier.ofOptions s.options).update r s.iterate.mu)).result = .ok found)
    (hx : s.iterate.x.add (d.dx.scale found.length) = .ok x)
    (hslacks : s.iterate.s.add (d.ds.scale found.length) = .ok slacks)
    (hy : s.iterate.y.add (d.dy.scale alphaDual) = .ok y)
    (hz : s.iterate.z.add (d.dz.scale alphaDual) = .ok z) :
    (s.advance e r).result = (do
      requireInterior slacks z
      let next ← Evaluation.compute s.program s.size x
      let c ← nextCurvature s.iterate e next x y z
      return (⟨x, slacks, y, z, c, (Barrier.ofOptions s.options).update r s.iterate.mu⟩,
        next)) := by
  simp only [advance, Traced.result_bind, Traced.result_liftM, Traced.result_note,
    Traced.result_pure, hd, hmax, hdual, hfound, hx, hslacks, hy, hz, Except.bind]
  rfl

/-- **Along a direction the interior decides.**  From an interior iterate of a program that answers
every question each part of a Newton step is found.  The step goes through if its slacks are
positive, as they are if it is not longer than the step to the boundary, and is refused
otherwise. -/
theorem Settled.advance_along {d : Direction K} (hs : Settled s) (hinterior : Interior s.iterate)
    (hvalid : s.options.validate = .ok ())
    (hB : Curvature.IsPosDef s.iterate.curvature s.size.vars) (hanswered : s.Answered)
    (hphase : s.phase = .stepping e r)
    (hd : s.system.direction s.iterate e r
      ((Barrier.ofOptions s.options).update r s.iterate.mu) = .ok d) :
    ∃ alphaMax found slacks,
      toBoundary s.iterate.s d.ds s.options.fractionToBoundary = .ok alphaMax ∧ 0 < alphaMax ∧
      ((LineSearch.ofOptions s.program s.size s.options).search s.iterate.x s.iterate.s d alphaMax
        ((Barrier.ofOptions s.options).update r s.iterate.mu)).result = .ok found ∧
      s.iterate.s.add (d.ds.scale found.length) = .ok slacks ∧
      (found.length ≤ alphaMax → ∀ v ∈ slacks.data, 0 < v) ∧
      ((∀ v ∈ slacks.data, 0 < v) → ∃ it next, (s.advance e r).result = .ok (it, next)) ∧
      ((¬∀ v ∈ slacks.data, 0 < v) →
        ∃ v, (s.advance e r).result = .error (.breakdown .slackOrMultiplier v)) := by
  obtain ⟨he, _, _⟩ := hs.toConsistent.fits_of_assessed (hs.stepping e r hphase)
  obtain ⟨hdfits, _, _⟩ := hs.fits_of_direction hphase hd
  have htau := Options.inRange_of_validate hvalid .fractionToBoundary rfl
  -- both steps to the boundary are positive, and whatever is not longer keeps to the interior
  obtain ⟨alphaMax, hmax, hmaxpos, _, hslack⟩ :=
    toBoundary_spec htau (hs.fits.s.trans hdfits.ds.symm) hinterior.1
  obtain ⟨alphaDual, hdual, hdualpos, _, hmultiplier⟩ :=
    toBoundary_spec htau (hs.fits.z.trans hdfits.dz.symm) hinterior.2
  obtain ⟨found, hfound⟩ := hs.exists_search hanswered hdfits alphaMax
    ((Barrier.ofOptions s.options).update r s.iterate.mu)
  obtain ⟨x, hx, hxs⟩ := Matrix.exists_add_scale hs.fits.x hdfits.dx found.length
  obtain ⟨slacks, hslacks, _⟩ := Matrix.exists_add_scale hs.fits.s hdfits.ds found.length
  obtain ⟨y, hy, hys⟩ := Matrix.exists_add_scale hs.fits.y hdfits.dy alphaDual
  obtain ⟨z, hz, hzpos⟩ := hmultiplier _ hdualpos.le le_rfl
  have hadvance := advance_of_found hd hmax hdual hfound hx hslacks hy hz
  have hinterior_iff : requireInterior slacks z = .ok () ↔
      (∀ v ∈ slacks.data, 0 < v) ∧ ∀ v ∈ z.data, 0 < v :=
    @requireInterior_eq_ok_iff K _ ⟨x, slacks, y, z, s.iterate.curvature, s.iterate.mu⟩
  refine ⟨alphaMax, found, slacks, hmax, hmaxpos, hfound, hslacks, fun hle => ?_, fun hpos => ?_,
    fun hnot => ?_⟩
  · obtain ⟨slacks', hslacks', hpos⟩ :=
      hslack _ (LineSearch.length_pos_of_search hmaxpos hfound).le hle
    obtain rfl := Except.ok.inj (hslacks.symm.trans hslacks')
    exact hpos
  · obtain ⟨next, hnext⟩ := exists_compute fun err => hanswered x err hxs
    obtain ⟨c, hc, _⟩ := exists_nextCurvature hs.fits he
      (Evaluation.fits_of_compute hs.measures hnext) hxs hys
      ((Matrix.shape_of_zipWith?_eq_ok hz).trans hs.fits.z) hB
    have hinside : requireInterior slacks z = .ok () := hinterior_iff.mpr ⟨hpos, hzpos⟩
    refine ⟨⟨x, slacks, y, z, c, (Barrier.ofOptions s.options).update r s.iterate.mu⟩, next,
      hadvance.trans ?_⟩
    rw [hinside, ok_bind, hnext, ok_bind, hc]
    rfl
  · rcases hrefused : requireInterior slacks z with err | ⟨⟩
    · obtain ⟨v, rfl⟩ := eq_breakdown_of_requireInterior hrefused
      refine ⟨v, hadvance.trans ?_⟩
      rw [hrefused]
      rfl
    · exact absurd (hinterior_iff.mp hrefused).1 hnot

/-- The equations decide whether there is a direction, and along it every step goes through that
the line search has not made longer than the step to the boundary. -/
theorem Settled.advance_cases (hs : Settled s) (hinterior : Interior s.iterate)
    (hvalid : s.options.validate = .ok ())
    (hB : Curvature.IsPosDef s.iterate.curvature s.size.vars) (hanswered : s.Answered)
    (hphase : s.phase = .stepping e r) :
    LinearIndependent K (e.equalityJacobian.entries s.size.equalities s.size.vars).row ∧
      ((∃ it next, (s.advance e r).result = .ok (it, next)) ∨
        2 ^ 31 < s.options.maxBacktracks ∧
          ∃ v, (s.advance e r).result = .error (.breakdown .slackOrMultiplier v)) ∨
    ¬LinearIndependent K (e.equalityJacobian.entries s.size.equalities s.size.vars).row ∧
      ∃ c, (s.advance e r).result = .error (.singular c) := by
  have hassessed := hs.stepping e r hphase
  obtain ⟨he, _, _⟩ := hs.toConsistent.fits_of_assessed hassessed
  have hcases := NewtonSystem.direction_iff hs.fits he hassessed.residual
    ((Barrier.ofOptions s.options).update r s.iterate.mu) hB
    (vec_pos_of_shape hs.fits.s hinterior.1) (vec_pos_of_shape hs.fits.z hinterior.2)
  rw [show (⟨s.size.vars, s.size.equalities, s.size.inequalities⟩ : NewtonSystem) = s.system from
    hs.system.symm] at hcases
  refine hcases.imp (And.imp_right ?_) (And.imp_right ?_)
  · rintro ⟨d, hd, _⟩
    obtain ⟨alphaMax, found, slacks, _, hmaxpos, hfound, _, hinside, hstored, hrefused⟩ :=
      hs.advance_along hinterior hvalid hB hanswered hphase hd
    by_cases hpos : ∀ v ∈ slacks.data, 0 < v
    · exact .inl (hstored hpos)
    · refine .inr ⟨not_le.mp fun hcount => hpos (hinside ?_), hrefused hpos⟩
      exact LineSearch.length_le_of_search hmaxpos hcount hfound
  · rintro ⟨c, hc⟩
    refine ⟨c, ?_⟩
    simp only [advance, Traced.result_bind, except_bind_eq_error, Traced.result_liftM]
    exact .inl hc

/-- **A call that stores its Newton step**, which is due. -/
def Stores (s : Solver K) : Prop :=
  ∃ e r it next, s.phase = .stepping e r ∧ (s.advance e r).result = .ok (it, next) ∧
    s.step.2.iterate = it ∧ s.step.2.iterations = s.iterations + 1

/-- **What becomes of a Newton step that is due**, however often the line search may try. -/
theorem Reachable.step_cases {p : Program K} {o : Options K} (h : Reachable p o s)
    (hp : p.Total s.size.vars) {record : Record K} (hlast : s.last = some record)
    (hpending : record.progress = .pending) :
    ∃ jg, s.size.jacobians p .equality s.iterate.x = .ok jg ∧
      (LinearIndependent K (jg.entries s.size.equalities s.size.vars).row ∧
        ((∃ record', s.step.1.result = .ok record') ∧ s.Stores ∨
          2 ^ 31 < o.maxBacktracks ∧
            ∃ v, s.step.1.result = .error (.breakdown .slackOrMultiplier v)) ∨
      ¬LinearIndependent K (jg.entries s.size.equalities s.size.vars).row ∧
        ∃ column, s.step.1.result = .error (.singular column)) := by
  obtain ⟨hvalid, rfl, rfl, hs⟩ := h.settled
  obtain ⟨x₀, hsize⟩ := h.measured
  obtain ⟨e, r, hphase⟩ := h.due record hlast hpending
  have hjacobian : s.size.jacobians s.program .equality s.iterate.x = .ok e.equalityJacobian := by
    have hevaluation := (hs.stepping e r hphase).evaluation
    simp only [Evaluation.compute, bind_eq_ok, pure_eq_ok] at hevaluation
    obtain ⟨_, _, _, _, _, _, _, hjacobian, _, _, _, _, rfl⟩ := hevaluation
    exact hjacobian
  have hcases := hs.advance_cases (h.interior zero_lt_one) hvalid h.isPosDef
    (fun x err hx => hp.not_fault hsize hx) hphase
  refine ⟨e.equalityJacobian, hjacobian, hcases.imp (And.imp_right ?_) (And.imp_right ?_)⟩
  · rintro (⟨it, next, hadvance⟩ | ⟨hcount, v, hadvance⟩)
    · obtain ⟨hrecord, hiterate, hiterations⟩ := s.steps.of_advance hs hphase hadvance
      exact .inl ⟨hrecord, e, r, it, next, hphase, hadvance, hiterate, hiterations⟩
    · exact .inr ⟨hcount, v, (step_error hphase hadvance).1⟩
  · rintro ⟨c, hadvance⟩
    exact ⟨c, (step_error hphase hadvance).1⟩

/-- The square of the distance from the corner of a quadrant, on the lines through it with the
equations `x + y = 0` and `x + b y = 0`: they are dependent exactly if `b` is one. -/
def linesProgram (b : ℚ) : Program ℚ where
  objective := fun x => x.transpose.multiply x
  gradient := fun x => .ok (x.scale 2)
  constraints :=
    [⟨.equality, fun x => (Matrix.ofRows #v[#v[1, 1], #v[1, b]]).multiply x,
        fun _ => .ok (Matrix.ofRows #v[#v[1, 1], #v[1, b]])⟩,
      ⟨.inequality, .ok, fun x => .ok (Matrix.identity x.rows)⟩]
  initialGuess := Matrix.column #[1, 2]

theorem total_linesProgram (b : ℚ) : (linesProgram b).Total 2 where
  objective x hx := Matrix.exists_multiply (Matrix.shape_transpose_of_shape hx) hx
  gradient x hx := ⟨_, rfl, hx⟩
  constraint := by
    simp only [linesProgram, List.forall_mem_cons]
    refine ⟨⟨2, fun x hx => ⟨Matrix.exists_multiply rfl hx, _, rfl, rfl⟩⟩,
      ⟨2, fun x hx => ⟨⟨x, rfl, hx⟩, _, rfl, ?_⟩⟩, nofun⟩
    obtain ⟨hrows, _⟩ := Matrix.shape_eq_iff.mp hx
    exact Matrix.shape_eq_iff.mpr ⟨hrows, hrows⟩

/-- A run of it after its first record. -/
def linesSolver (b : ℚ) : Solver ℚ :=
  (start (linesProgram b) .default ⟨2, [(.equality, 2), (.inequality, 2)]⟩
    (linesProgram b).initialGuess).step.2

theorem size_linesSolver (b : ℚ) :
    (linesSolver b).size = ⟨2, [(.equality, 2), (.inequality, 2)]⟩ := (steps _).size_eq

theorem reachable_linesSolver (b : ℚ) :
    Reachable (linesProgram b) Options.default (linesSolver b) := by
  have hvalid : (Options.default : Options ℚ).validate = .ok () := by decide +kernel
  have hsize : Size.compute (linesProgram b) (linesProgram b).initialGuess =
      .ok ⟨2, [(.equality, 2), (.inequality, 2)]⟩ := rfl
  refine .step (.create (x := (linesProgram b).initialGuess) ?_)
  rw [create, hvalid, ok_bind, hsize, ok_bind]
  rfl

end InteriorPoint.Solver
