import InteriorPoint.Iterate
import InteriorPoint.Options
import InteriorPoint.Traced

/-!
# LineSearch — how far to go along a direction

`toBoundary` is the longest step that keeps a given part of the distance to the boundary of the
positive orthant. From there, `search` halves the step until the trial point takes enough off the
violation of the constraints or off the merit, which is the objective less `mu` times the
logarithms of the slacks.
-/

namespace InteriorPoint

variable {α : Type} [Scalar α]

/-- One entry's part in the rule of the boundary: a falling entry limits the step. -/
def limitStep (tau alpha : α) (v dv : α) : α :=
  if dv < 0 then Scalar.min alpha (-tau * v / dv) else alpha

/-- **The longest step up to one** at which every entry of `v` keeps the part `1 - tau` of itself.
-/
def toBoundary (v dv : Matrix α) (tau : α) : Except (Error α) α :=
  if v.shape = dv.shape then
    let alpha := (v.data.zip dv.data).foldl (fun alpha (vi, dvi) => limitStep tau alpha vi dvi) 1
    if alpha < 0 then .error (.infeasibleStep alpha) else .ok alpha
  else .error (.mismatch .toBoundary v.shape dv.shape)

/-- **A line search** on the functions of a program. -/
structure LineSearch (α : Type) where
  program : Program α
  size : Size
  gammaTheta : α
  gammaPhi : α
  maxBacktracks : Nat

namespace LineSearch

/-- The line search that options ask for. -/
def ofOptions (p : Program α) (size : Size) (o : Options α) : LineSearch α :=
  ⟨p, size, o.gammaTheta, o.gammaPhi, o.maxBacktracks⟩

/-- **The violation** of the constraints at a point with slacks. -/
def violation (ls : LineSearch α) (x s : Matrix α) : Except (Error α) α := do
  let g ← ls.size.values ls.program .equality x
  let h ← ls.size.values ls.program .inequality x
  return Scalar.max g.normTwo (← h.subtract s).normTwo

/-- The objective at a point, as a scalar. -/
def objective (ls : LineSearch α) (x : Matrix α) : Except (Error α) α := do
  let f ← ls.program.objective x
  if h : f.rows = 1 ∧ f.cols = 1 then
    return f.get ⟨0, h.1 ▸ Nat.one_pos⟩ ⟨0, h.2 ▸ Nat.one_pos⟩
  else throw (.mismatch .objective f.shape (1, 1))

/-- **The merit** of a point with slacks. -/
def merit (ls : LineSearch α) (x s : Matrix α) (mu : α) : Except (Error α) α :=
  return (← ls.objective x) - mu * s.sumLn

/-- Violation and merit of a point. -/
structure Measures (α : Type) where
  theta : α
  phi : α

/-- Measures a point. -/
def measure (ls : LineSearch α) (x s : Matrix α) (mu : α) : Except (Error α) (Measures α) :=
  return { theta := ← ls.violation x s, phi := ← ls.merit x s mu }

/-- **Whether a trial is good enough** beside the start. -/
def Accepts (ls : LineSearch α) (start trial : Measures α) : Prop :=
  trial.theta ≤ (1 - ls.gammaTheta) * start.theta ∨
    trial.phi ≤ start.phi - ls.gammaPhi * start.theta

instance (ls : LineSearch α) (start trial : Measures α) : Decidable (ls.Accepts start trial) :=
  inferInstanceAs (Decidable (_ ∨ _))

/-- The length of trial `l`.  Exponents have thirty-two bits. -/
def trialLength (alphaMax : α) (l : Nat) : α :=
  alphaMax * Scalar.powInt 0.5 (Int32.ofNat l).toInt

/-- The measures of the point at length `alpha` along a direction. -/
def trial (ls : LineSearch α) (x s : Matrix α) (d : Direction α) (mu alpha : α) :
    Except (Error α) (Measures α) := do
  let x ← x.add (d.dx.scale alpha)
  let s ← s.add (d.ds.scale alpha)
  ls.measure x s mu

/-- How a search ended, and at which length. -/
inductive Outcome (α : Type) where
  | accepted (alpha : α)
  | exhausted (alpha : α)

/-- The length at which a search ended. -/
def Outcome.length : Outcome α → α
  | .accepted alpha => alpha
  | .exhausted alpha => alpha

/-- Tries length after length: `left` of them, the next one having number `l` and the one before
being `last`. -/
def backtrack (ls : LineSearch α) (x s : Matrix α) (d : Direction α) (alphaMax mu : α)
    (start : Measures α) : (left l : Nat) → (last : α) → Traced α (Outcome α)
  | 0, _, last => do
    Traced.note (.searchExhausted last)
    return .exhausted last
  | left + 1, l, _ => do
    let alpha := trialLength alphaMax l
    let m ← ls.trial x s d mu alpha
    Traced.note (.trial l alpha m.theta start.theta m.phi start.phi)
    if ls.Accepts start m then return .accepted alpha
    else ls.backtrack x s d alphaMax mu start left (l + 1) alpha

/-- **Searches along a direction** from the longest admissible step. -/
def search (ls : LineSearch α) (x s : Matrix α) (d : Direction α) (alphaMax mu : α) :
    Traced α (Outcome α) := do
  let start ← ls.measure x s mu
  ls.backtrack x s d alphaMax mu start ls.maxBacktracks 0 alphaMax

end LineSearch

end InteriorPoint
