import Mathlib
import InteriorPoint.Proofs.Stacking

/-!
# Proofs/Evaluation — what an evaluation accepts, and how it fails

An evaluation is a list of requests to a program, in a fixed order: the gradient, the values of the
equalities and of the inequalities, and their Jacobians.  Each answer is held to a shape, and those
of one sort are put together (`Gathers`); when all are there, their entries are looked through in
the same order.

* `Evaluation.failure?_compute` — an evaluation fails as the first request with a fault, and if
  there is none, for the first entry that is not finite.
* `Evaluation.Aligned` — a row of the stacked values and the same row of the stacked Jacobians come
  from the same row of the same block.
* `Evaluation.compute_outcome` — which programs are accepted at a point, and what becomes of those
  and of the others.
-/

namespace InteriorPoint

/-! ## Requests -/

variable {α : Type}

/-- **A function of a program, asked at a point**: the operation that the shape of the answer is
checked under, the quantity that its entries are, and the shape it is held to. -/
structure Request (α : Type) where
  op : Operation
  quantity : Quantity
  ask : MatrixFunction α
  shape : Shape

namespace Request

/-- The answer to a request, held to its shape. -/
def answer (q : Request α) (x : Matrix α) : Except (Error α) (Matrix α) := do
  let m ← q.ask x
  if m.shape = q.shape then return m
  else throw (.mismatch q.op m.shape q.shape)

/-- **What is wrong with an answer**: the function fails, or the shape is another one. -/
def fault? (q : Request α) (x : Matrix α) : Option (Error α) :=
  match q.ask x with
  | .error err => some err
  | .ok m => if m.shape = q.shape then none else some (.mismatch q.op m.shape q.shape)

/-- **What is wrong with its entries**: the first one that is not finite. -/
def breakdown? [Scalar α] (q : Request α) (x : Matrix α) : Option (Error α) :=
  match q.ask x with
  | .error _ => none
  | .ok m => m.firstNonFinite?.map (.breakdown q.quantity)

variable {q : Request α} {x m : Matrix α}

theorem answer_eq_ok : q.answer x = .ok m ↔ q.ask x = .ok m ∧ m.shape = q.shape := by
  rw [answer, bind_eq_ok]
  constructor
  · rintro ⟨m', hm', h⟩
    split at h
    · rename_i hshape
      obtain rfl := pure_eq_ok.mp h
      exact ⟨hm', hshape⟩
    · exact nomatch h
  · rintro ⟨hm, hshape⟩
    exact ⟨m, hm, if_pos hshape⟩

theorem failure?_answer (q : Request α) (x : Matrix α) : failure? (q.answer x) = q.fault? x := by
  rw [answer, fault?]
  rcases q.ask x with err | m
  · rfl
  · by_cases hshape : m.shape = q.shape
    · simp only [ok_bind, if_pos hshape]
      rfl
    · simp only [ok_bind, if_neg hshape]
      rfl

theorem breakdown?_of_ask [Scalar α] (h : q.ask x = .ok m) :
    q.breakdown? x = m.firstNonFinite?.map (.breakdown q.quantity) := by
  rw [breakdown?, h]

/-- **Nothing is wrong with an answer of the right shape whose entries are finite.** -/
theorem faultless_iff [Scalar α] : q.fault? x = none ∧ q.breakdown? x = none ↔
    ∃ m, q.ask x = .ok m ∧ m.shape = q.shape ∧ m.isFinite = true := by
  rw [fault?, breakdown?]
  rcases hask : q.ask x with err | m
  · simp
  · simp [← Matrix.firstNonFinite?_eq_none]

end Request

/-! ## Answers that are put together -/

section Gather

variable {qs : List (Request α)} {x m : Matrix α} {quantity : Quantity} {width : ℕ}
  {result : Except (Error α) (Matrix α)}

/-- **The answers to requests for one quantity, put together**: this fails as the first answer that
has a fault, and otherwise gives a stack of the answers. -/
structure Gathers (qs : List (Request α)) (x : Matrix α) (quantity : Quantity) (width : ℕ)
    (result : Except (Error α) (Matrix α)) : Prop where
  quantity_eq : ∀ q ∈ qs, q.quantity = quantity
  width_eq : ∀ q ∈ qs, q.shape.2 = width
  fault : failure? result = qs.findSome? (·.fault? x)
  stack : ∀ m, result = .ok m → ∃ parts,
    List.Forall₂ (fun q part => q.answer x = .ok part) qs parts ∧ m.IsStack width parts

theorem gathers_answer (q : Request α) (x : Matrix α) :
    Gathers [q] x q.quantity q.shape.2 (q.answer x) where
  quantity_eq := List.forall_mem_singleton.mpr rfl
  width_eq := List.forall_mem_singleton.mpr rfl
  fault := by rw [Request.failure?_answer, List.findSome?_singleton]
  stack m hm := by
    refine ⟨[m], .cons hm .nil, Matrix.shape_eq_iff.mpr ⟨by simp, ?_⟩, by simp⟩
    exact congrArg Prod.snd (Request.answer_eq_ok.mp hm).2

/-- The width of a stack is that of each of its answers. -/
theorem cols_of_answers {parts : List (Matrix α)} (hwidth : ∀ q ∈ qs, q.shape.2 = width)
    (h : qs.mapM (·.answer x) = .ok parts) : ∀ part ∈ parts, part.cols = width := by
  intro part hpart
  obtain ⟨q, hq, hanswer⟩ := exists_of_mem_mapM h hpart
  exact (congrArg Prod.snd (Request.answer_eq_ok.mp hanswer).2).trans (hwidth q hq)

theorem gathers_mapM {assemble : List (Matrix α) → Except (Error α) (Matrix α)}
    (hquantity : ∀ q ∈ qs, q.quantity = quantity) (hwidth : ∀ q ∈ qs, q.shape.2 = width)
    (h : ∀ parts, (∀ part ∈ parts, part.cols = width) →
      ∃ m, assemble parts = .ok m ∧ m.IsStack width parts) :
    Gathers qs x quantity width (qs.mapM (·.answer x) >>= assemble) where
  quantity_eq := hquantity
  width_eq := hwidth
  fault := by
    have hassemble : ∀ parts, qs.mapM (·.answer x) = .ok parts →
        failure? (assemble parts) = none := fun parts hparts =>
      failure?_eq_none.mpr ((h parts (cols_of_answers hwidth hparts)).imp fun _ => And.left)
    rw [failure?_bind hassemble, Option.or_none, failure?_mapM]
    simp only [Request.failure?_answer]
  stack m hm := by
    obtain ⟨parts, hparts, hm⟩ := bind_eq_ok.mp hm
    obtain ⟨m', hm', hstack⟩ := h parts (cols_of_answers hwidth hparts)
    obtain rfl := Except.ok.inj (hm'.symm.trans hm)
    exact ⟨parts, mapM_eq_ok.mp hparts, hstack⟩

variable [Scalar α]

theorem failure?_requireFinite (quantity : Quantity) (m : Matrix α) :
    failure? (m.requireFinite quantity) = m.firstNonFinite?.map (.breakdown quantity) := by
  rw [Matrix.requireFinite]
  cases m.firstNonFinite? <;> rfl

theorem findSome?_breakdown? {parts : List (Matrix α)} (hq : ∀ q ∈ qs, q.quantity = quantity)
    (h : List.Forall₂ (fun q part => q.answer x = .ok part) qs parts) :
    qs.findSome? (·.breakdown? x) =
      (parts.findSome? Matrix.firstNonFinite?).map (.breakdown quantity) := by
  induction h with
  | nil => rfl
  | @cons q m qs parts hm _ ih =>
    obtain ⟨rfl, hq⟩ := List.forall_mem_cons.mp hq
    rw [List.findSome?_cons, List.findSome?_cons, ih hq,
      Request.breakdown?_of_ask (Request.answer_eq_ok.mp hm).1]
    cases m.firstNonFinite? <;> rfl

/-- **A stack of answers is refused for the first entry of an answer that is not finite.** -/
theorem Gathers.breakdown (h : Gathers qs x quantity width result) (hm : result = .ok m) :
    failure? (m.requireFinite quantity) = qs.findSome? (·.breakdown? x) := by
  obtain ⟨parts, hparts, hstack⟩ := h.stack m hm
  rw [failure?_requireFinite, hstack.firstNonFinite?_eq, findSome?_breakdown? h.quantity_eq hparts]

/-- **The rows of a stack of answers**: each answer begins where the rows end that the requests
before it ask for. -/
theorem Gathers.rows (h : Gathers qs x quantity width result) (hm : result = .ok m) :
    m.shape = ((qs.map (·.shape.1)).sum, width) ∧
    ∀ (before : List (Request α)) (q : Request α) (after : List (Request α)),
      qs = before ++ q :: after → ∃ part, q.answer x = .ok part ∧
        ∀ i < q.shape.1, ∀ j,
          m.coeff ((before.map (·.shape.1)).sum + i) j = part.coeff i j := by
  obtain ⟨parts, hparts, hstack⟩ := h.stack m hm
  have hrows {qs : List (Request α)} {parts : List (Matrix α)}
      (h : List.Forall₂ (fun q part => q.answer x = .ok part) qs parts) :
      qs.map (·.shape.1) = parts.map Matrix.rows :=
    map_eq_of_forall₂ (h.imp fun _ _ hanswer =>
      (congrArg Prod.fst (Request.answer_eq_ok.mp hanswer).2).symm)
  refine ⟨hrows hparts ▸ hstack.1, ?_⟩
  have hcols := cols_of_answers h.width_eq (mapM_eq_ok.mpr hparts)
  rintro before q after rfl
  obtain ⟨front, part, back, rfl, hfront, hanswer⟩ := exists_of_forall₂_append hparts
  refine ⟨part, hanswer, fun i hi j => ?_⟩
  rw [hstack.coeff_eq hcols, hrows hfront]
  refine Matrix.aboveCoeff_append ?_
  exact hi.trans_eq (congrArg Prod.fst (Request.answer_eq_ok.mp hanswer).2).symm

end Gather

/-! ## The requests of an evaluation -/

/-- What the values of a kind of constraints are. -/
def ConstraintKind.valueQuantity : ConstraintKind → Quantity
  | .equality => .equalityConstraint
  | .inequality => .inequalityConstraint

/-- What their Jacobians are. -/
def ConstraintKind.jacobianQuantity : ConstraintKind → Quantity
  | .equality => .equalityJacobian
  | .inequality => .inequalityJacobian

namespace Constraint

/-- The rows of a block of constraints at a point. -/
def rowsAt (c : Constraint α) (x₀ : Matrix α) : ℕ :=
  match c.value x₀ with
  | .ok v => v.rows
  | .error _ => 0

/-- The request for the value of a block, with the rows it has at `x₀`. -/
def valueRequest (x₀ : Matrix α) (c : Constraint α) : Request α :=
  ⟨.constraintValue, c.kind.valueQuantity, c.value, (c.rowsAt x₀, 1)⟩

/-- The request for its Jacobian. -/
def jacobianRequest (x₀ : Matrix α) (c : Constraint α) : Request α :=
  ⟨.constraintJacobian, c.kind.jacobianQuantity, c.jacobian, (c.rowsAt x₀, x₀.rows)⟩

end Constraint

namespace Program

/-- The blocks of a kind, in the order of declaration. -/
def blocks (p : Program α) (kind : ConstraintKind) : List (Constraint α) :=
  p.constraints.filter (·.kind = kind)

/-- The request for the gradient of the objective. -/
def gradientRequest (p : Program α) (x₀ : Matrix α) : Request α :=
  ⟨.gradient, .gradient, p.gradient, (x₀.rows, 1)⟩

/-- **The requests of an evaluation**, in their order; the dimensions are those at `x₀`. -/
def requests (p : Program α) (x₀ : Matrix α) : List (Request α) :=
  p.gradientRequest x₀ ::
    ((p.blocks .equality).map (Constraint.valueRequest x₀) ++
      (p.blocks .inequality).map (Constraint.valueRequest x₀) ++
      (p.blocks .equality).map (Constraint.jacobianRequest x₀) ++
      (p.blocks .inequality).map (Constraint.jacobianRequest x₀))

theorem findSome?_requests (p : Program α) (x₀ : Matrix α) (f : Request α → Option (Error α)) :
    (p.requests x₀).findSome? f = ([p.gradientRequest x₀].findSome? f).or
      ((((p.blocks .equality).map (Constraint.valueRequest x₀)).findSome? f).or
        ((((p.blocks .inequality).map (Constraint.valueRequest x₀)).findSome? f).or
          ((((p.blocks .equality).map (Constraint.jacobianRequest x₀)).findSome? f).or
            (((p.blocks .inequality).map (Constraint.jacobianRequest x₀)).findSome? f)))) := by
  rw [requests, ← List.singleton_append]
  simp only [List.findSome?_append, Option.or_assoc]

theorem mem_blocks {p : Program α} {kind : ConstraintKind} {c : Constraint α} :
    c ∈ p.blocks kind ↔ c ∈ p.constraints ∧ c.kind = kind := by
  rw [blocks, List.mem_filter, decide_eq_true_iff]

/-- **What holds of every request**: of that for the gradient, and of both for every block. -/
theorem forall_mem_requests {p : Program α} {x₀ : Matrix α} {P : Request α → Prop} :
    (∀ q ∈ p.requests x₀, P q) ↔ P (p.gradientRequest x₀) ∧
      ∀ c ∈ p.constraints, P (c.valueRequest x₀) ∧ P (c.jacobianRequest x₀) := by
  have hkinds {R : Constraint α → Prop} : (∀ c ∈ p.constraints, R c) ↔
      (∀ c ∈ p.blocks .equality, R c) ∧ ∀ c ∈ p.blocks .inequality, R c := by
    simp only [mem_blocks]
    refine ⟨fun h => ⟨fun c hc => h c hc.1, fun c hc => h c hc.1⟩, fun h c hc => ?_⟩
    cases hkind : c.kind with
    | equality => exact h.1 c ⟨hc, hkind⟩
    | inequality => exact h.2 c ⟨hc, hkind⟩
  simp only [requests, List.forall_mem_cons, List.forall_mem_append, List.forall_mem_map,
    forall₂_and, hkinds]
  tauto

end Program

section Dimensions

variable {p : Program α} {size : Size} {x₀ x : Matrix α}

/-- **The dimensions learned at a point**: a row per entry of it, and for each block the rows it has
there. -/
theorem Size.blocksOf_of_compute (h : Size.compute p x₀ = .ok size) :
    size.vars = x₀.rows ∧ ∀ kind, size.blocksOf p kind =
      (p.blocks kind).map fun c => (c, c.rowsAt x₀) := by
  obtain ⟨hmeasures, hshape⟩ := Size.measures_of_compute h
  refine ⟨(Matrix.shape_eq_iff.mp hshape).1.symm, fun kind => ?_⟩
  rw [Program.blocks, ← Size.map_fst_blocksOf hmeasures kind, List.map_map]
  refine (List.map_id _).symm.trans (List.map_congr_left fun b hb => ?_)
  obtain ⟨_, v, hv, hrows⟩ := Size.measured_of_mem_blocksOf h hb
  refine Prod.ext rfl ?_
  simp only [id, Function.comp, Constraint.rowsAt, hv, hrows]

theorem Evaluation.objectiveGradient_eq (h : Size.compute p x₀ = .ok size) (x : Matrix α) :
    objectiveGradient p size x = (p.gradientRequest x₀).answer x := by
  rw [objectiveGradient, (Size.blocksOf_of_compute h).1]
  rfl

variable [Scalar α]

theorem Size.gathers_values (h : Size.compute p x₀ = .ok size) (kind : ConstraintKind)
    (x : Matrix α) :
    Gathers ((p.blocks kind).map (Constraint.valueRequest x₀)) x kind.valueQuantity 1
      (size.values p kind x) := by
  have hvalues : size.values p kind x =
      ((p.blocks kind).map (Constraint.valueRequest x₀)).mapM (·.answer x) >>= fun parts =>
        pure (Matrix.column (parts.toArray.flatMap Matrix.data)) := by
    rw [Size.values, (Size.blocksOf_of_compute h).2, List.mapM_map, List.mapM_map]
    rfl
  rw [hvalues]
  refine gathers_mapM (List.forall_mem_map.mpr fun c hc => ?_)
    (List.forall_mem_map.mpr fun c _ => rfl)
    fun parts hcols => ⟨_, rfl, Matrix.isStack_column hcols⟩
  exact congrArg ConstraintKind.valueQuantity (Program.mem_blocks.mp hc).2

theorem Size.gathers_jacobians (h : Size.compute p x₀ = .ok size) (kind : ConstraintKind)
    (x : Matrix α) :
    Gathers ((p.blocks kind).map (Constraint.jacobianRequest x₀)) x kind.jacobianQuantity x₀.rows
      (size.jacobians p kind x) := by
  obtain ⟨hvars, hblocks⟩ := Size.blocksOf_of_compute h
  have hjacobians : size.jacobians p kind x =
      ((p.blocks kind).map (Constraint.jacobianRequest x₀)).mapM (·.answer x) >>= fun parts =>
        Matrix.stack (Matrix.noRows x₀.rows :: parts) := by
    rw [Size.jacobians, hblocks, hvars, List.mapM_map, List.mapM_map]
    rfl
  rw [hjacobians]
  refine gathers_mapM (List.forall_mem_map.mpr fun c hc => ?_)
    (List.forall_mem_map.mpr fun c _ => rfl) fun parts hcols => ?_
  · exact congrArg ConstraintKind.jacobianQuantity (Program.mem_blocks.mp hc).2
  · obtain ⟨m, hm, hstack, _⟩ := Matrix.exists_isStack hcols
    exact ⟨m, hm, hstack⟩

/-! ## Evaluations -/

namespace Evaluation

theorem failure?_requireFinite (e : Evaluation α) :
    failure? e.requireFinite = (failure? (e.gradient.requireFinite .gradient)).or
      ((failure? (e.equality.requireFinite (ConstraintKind.valueQuantity .equality))).or
        ((failure? (e.inequality.requireFinite (ConstraintKind.valueQuantity .inequality))).or
          ((failure? (e.equalityJacobian.requireFinite
              (ConstraintKind.jacobianQuantity .equality))).or
            (failure? (e.inequalityJacobian.requireFinite
              (ConstraintKind.jacobianQuantity .inequality)))))) :=
  failure?_bind fun _ _ => failure?_bind fun _ _ => failure?_bind fun _ _ =>
    failure?_bind fun _ _ => rfl

/-- **An evaluation fails as the first request that has a fault**, and if none has, for the first
entry that is not finite. -/
theorem failure?_compute (h : Size.compute p x₀ = .ok size) (x : Matrix α) :
    failure? (compute p size x) =
      ((p.requests x₀).findSome? (·.fault? x)).or ((p.requests x₀).findSome? (·.breakdown? x)) := by
  have hgradient := gathers_answer (p.gradientRequest x₀) x
  rw [← objectiveGradient_eq h] at hgradient
  have hvalues := fun kind => Size.gathers_values h kind x
  have hjacobians := fun kind => Size.gathers_jacobians h kind x
  rw [Program.findSome?_requests, Program.findSome?_requests, ← hgradient.fault,
    ← (hvalues .equality).fault, ← (hvalues .inequality).fault, ← (hjacobians .equality).fault,
    ← (hjacobians .inequality).fault]
  simp only [Option.or_assoc]
  -- how the rest fails does not depend on what the parts before it give
  refine failure?_bind fun gradient hg => failure?_bind fun g hvg => failure?_bind fun k hvk =>
    failure?_bind fun jg hjg => failure?_bind fun jk hjk => ?_
  refine (failure?_bind (o := none) fun _ _ => rfl).trans ?_
  rw [Option.or_none, failure?_requireFinite]
  simp only
  rw [(hvalues .equality).breakdown hvg, (hvalues .inequality).breakdown hvk,
    (hjacobians .equality).breakdown hjg, (hjacobians .inequality).breakdown hjk,
    ← hgradient.breakdown hg]
  rfl

/-- **Stacks of values and Jacobians with their rows aligned.**  The rows of each block begin where
those of the blocks before it end, in both stacks; the blocks have the rows they have at `x₀`. -/
structure Aligned (cs : List (Constraint α)) (x₀ x g j : Matrix α) : Prop where
  values : g.shape = ((cs.map (·.rowsAt x₀)).sum, 1)
  jacobians : j.shape = ((cs.map (·.rowsAt x₀)).sum, x₀.rows)
  block : ∀ (before : List (Constraint α)) (c : Constraint α) (after : List (Constraint α)),
    cs = before ++ c :: after → ∃ value jacobian,
      c.value x = .ok value ∧ value.shape = (c.rowsAt x₀, 1) ∧
      c.jacobian x = .ok jacobian ∧ jacobian.shape = (c.rowsAt x₀, x₀.rows) ∧
      ∀ i < c.rowsAt x₀,
        g.coeff ((before.map (·.rowsAt x₀)).sum + i) 0 = value.coeff i 0 ∧
        ∀ l, j.coeff ((before.map (·.rowsAt x₀)).sum + i) l = jacobian.coeff i l

/-- The values and the Jacobians of a kind are stacked in two passes, and stay aligned. -/
theorem aligned_of_gathers {cs : List (Constraint α)} {quantity quantity' : Quantity}
    {values jacobians : Except (Error α) (Matrix α)} {g j : Matrix α}
    (hvalues : Gathers (cs.map (Constraint.valueRequest x₀)) x quantity 1 values)
    (hjacobians : Gathers (cs.map (Constraint.jacobianRequest x₀)) x quantity' x₀.rows jacobians)
    (hg : values = .ok g) (hj : jacobians = .ok j) : Aligned cs x₀ x g j := by
  obtain ⟨hshape, hrows⟩ := hvalues.rows hg
  obtain ⟨hshape', hrows'⟩ := hjacobians.rows hj
  rw [List.map_map] at hshape hshape'
  refine ⟨hshape, hshape', ?_⟩
  rintro before c after rfl
  obtain ⟨value, hvalue, hcoeff⟩ := hrows _ _ _ List.map_append
  obtain ⟨jacobian, hjacobian, hcoeff'⟩ := hrows' _ _ _ List.map_append
  obtain ⟨hv, hvshape⟩ := Request.answer_eq_ok.mp hvalue
  obtain ⟨hJ, hJshape⟩ := Request.answer_eq_ok.mp hjacobian
  rw [List.map_map] at hcoeff hcoeff'
  exact ⟨value, jacobian, hv, hvshape, hJ, hJshape, fun i hi => ⟨hcoeff i hi 0, hcoeff' i hi⟩⟩

/-- **Nothing is wrong with any request** exactly if gradient, values and Jacobians are given, with
their shapes and finite. -/
theorem exists_compute_iff (h : Size.compute p x₀ = .ok size) (x : Matrix α) :
    (∃ e, compute p size x = .ok e) ↔
      (∃ m, p.gradient x = .ok m ∧ m.shape = (x₀.rows, 1) ∧ m.isFinite = true) ∧
      ∀ c ∈ p.constraints,
        (∃ m, c.value x = .ok m ∧ m.shape = (c.rowsAt x₀, 1) ∧ m.isFinite = true) ∧
        ∃ m, c.jacobian x = .ok m ∧ m.shape = (c.rowsAt x₀, x₀.rows) ∧ m.isFinite = true := by
  rw [← failure?_eq_none, failure?_compute h, Option.or_eq_none_iff, List.findSome?_eq_none_iff,
    List.findSome?_eq_none_iff, ← forall₂_and]
  simp only [Request.faultless_iff]
  exact Program.forall_mem_requests

/-- **What an evaluation accepts, and how it fails.**  With dimensions learned at any point, a
program is evaluated exactly if the gradient and all blocks answer, with the shapes they are held
to, block by block, and with finite entries.  Then the blocks of each kind are stacked in the order
of declaration, values and Jacobians row by row alike.  Otherwise the error is that of the first
request with a fault, and if there is none, the first entry that is not finite, both in the order of
the requests.  So a block that changes its rows is refused, whatever the other blocks do. -/
theorem compute_outcome (h : Size.compute p x₀ = .ok size) (x : Matrix α) :
    ((∃ e, compute p size x = .ok e) ↔
      (∃ m, p.gradient x = .ok m ∧ m.shape = (x₀.rows, 1) ∧ m.isFinite = true) ∧
      ∀ c ∈ p.constraints,
        (∃ m, c.value x = .ok m ∧ m.shape = (c.rowsAt x₀, 1) ∧ m.isFinite = true) ∧
        ∃ m, c.jacobian x = .ok m ∧ m.shape = (c.rowsAt x₀, x₀.rows) ∧ m.isFinite = true) ∧
    (∀ e, compute p size x = .ok e → p.gradient x = .ok e.gradient ∧
      Aligned (p.blocks .equality) x₀ x e.equality e.equalityJacobian ∧
      Aligned (p.blocks .inequality) x₀ x e.inequality e.inequalityJacobian) ∧
    (∀ err, compute p size x = .error err ↔
      ((p.requests x₀).findSome? (·.fault? x)).or ((p.requests x₀).findSome? (·.breakdown? x)) =
        some err) ∧
    ∀ c ∈ p.constraints, ∀ v, c.value x = .ok v → v.rows ≠ c.rowsAt x₀ →
      ∃ err, compute p size x = .error err := by
  refine ⟨exists_compute_iff h x, ?_, ?_, ?_⟩
  · intro e he
    simp only [compute, bind_eq_ok, pure_eq_ok] at he
    obtain ⟨gradient, hgradient, g, hg, k, hk, jg, hjg, jk, hjk, _, _, rfl⟩ := he
    rw [objectiveGradient_eq h] at hgradient
    exact ⟨(Request.answer_eq_ok.mp hgradient).1,
      aligned_of_gathers (Size.gathers_values h _ x) (Size.gathers_jacobians h _ x) hg hjg,
      aligned_of_gathers (Size.gathers_values h _ x) (Size.gathers_jacobians h _ x) hk hjk⟩
  · intro err
    rw [← failure?_compute h, failure?_eq_some]
  · intro c hc v hv hrows
    rcases hcompute : compute p size x with err | e
    · exact ⟨err, rfl⟩
    · obtain ⟨_, hblocks⟩ := (exists_compute_iff h x).mp ⟨e, hcompute⟩
      obtain ⟨⟨m, hm, hshape, _⟩, _⟩ := hblocks c hc
      obtain rfl := Except.ok.inj (hv.symm.trans hm)
      exact absurd (Matrix.shape_eq_iff.mp hshape).1 hrows

/-- A block of zero equations, one of them at the origin and two elsewhere, or the other way
round. -/
def tradingBlock (atOrigin elsewhere : ℕ) : Constraint ℚ where
  kind := .equality
  value x := .ok (Matrix.zeros (if x.coeff 0 0 = 0 then atOrigin else elsewhere) 1)
  jacobian x := .ok (Matrix.zeros (if x.coeff 0 0 = 0 then atOrigin else elsewhere) x.rows)

/-- Two blocks that trade a row when they leave the origin. -/
def tradingProgram : Program ℚ where
  objective x := x.transpose.multiply x
  gradient x := .ok (x.scale 2)
  constraints := [tradingBlock 1 2, tradingBlock 2 1]
  initialGuess := Matrix.column #[0]

/-- At the origin the program is evaluated, and its three rows are aligned; elsewhere there are
three rows, too, and the first block is refused. -/
theorem compute_outcome_trading :
    Size.compute tradingProgram (Matrix.column #[0]) =
      .ok ⟨1, [(.equality, 1), (.equality, 2)]⟩ ∧
    (∃ e, compute tradingProgram ⟨1, [(.equality, 1), (.equality, 2)]⟩ (Matrix.column #[0]) =
        .ok e ∧
      Aligned [tradingBlock 1 2, tradingBlock 2 1] (Matrix.column #[0]) (Matrix.column #[0])
        e.equality e.equalityJacobian) ∧
    Size.compute tradingProgram (Matrix.column #[1]) =
      .ok ⟨1, [(.equality, 2), (.equality, 1)]⟩ ∧
    compute tradingProgram ⟨1, [(.equality, 1), (.equality, 2)]⟩ (Matrix.column #[1]) =
      .error (.mismatch .constraintValue (2, 1) (1, 1)) := by
  have hsize : Size.compute tradingProgram (Matrix.column #[0]) =
      .ok ⟨1, [(.equality, 1), (.equality, 2)]⟩ := by decide +kernel
  obtain ⟨_, haligned, _⟩ := compute_outcome hsize (Matrix.column #[0])
  obtain ⟨_, _, herror, _⟩ := compute_outcome hsize (Matrix.column #[1])
  have hok : (compute tradingProgram ⟨1, [(.equality, 1), (.equality, 2)]⟩
      (Matrix.column #[0])).toOption.any (fun _ => true) = true := by decide +kernel
  obtain ⟨e, he, _⟩ := exists_of_test hok
  refine ⟨hsize, ⟨e, he, (haligned e he).2.1⟩, by decide +kernel, (herror _).mpr ?_⟩
  decide +kernel

end Evaluation

end Dimensions

end InteriorPoint
