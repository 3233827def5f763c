import InteriorPoint.Record

/-!
# Traced — computations that report on their way

A `Traced α β` is a result or an error together with the events that came up before it; the events
stay when an error follows. Forgetting the events is compatible with sequencing: `result_bind` and
`result_pure` reduce every statement about results to one about `Except`.
-/

namespace InteriorPoint

/-- How much an event matters. -/
inductive Level where
  | info
  | debug
  | trace
  deriving DecidableEq, Repr

/-- The word for it. -/
def Level.text : Level → String
  | .info => "INFO"
  | .debug => "DEBUG"
  | .trace => "TRACE"

/-- Whether an event of level `l` is shown when `self` is asked for. -/
def Level.shows : (self l : Level) → Bool
  | _, .info => true
  | .info, _ => false
  | _, .debug => true
  | .debug, .trace => false
  | .trace, .trace => true

/-- **What can come up on the way.** -/
inductive Event (α : Type) where
  /-- The line search tried a length; violation and merit stand beside those at the start. -/
  | trial (index : Nat) (alpha theta thetaRef phi phiRef : α)
  /-- The line search ran out of lengths. -/
  | searchExhausted (alpha : α)
  /-- A step was taken. -/
  | stepped (alpha alphaMax alphaDual mu : α)
  /-- An iterate was examined and is not optimal. -/
  | examined (iteration : Nat) (primal dual mu : α)
  /-- An iterate was examined and is optimal. -/
  | converged (iteration : Nat) (primal dual : α)
  /-- No step is left. -/
  | exhausted (iteration : Nat) (mu : α)
  /-- An observer was shown a record. -/
  | observed (record : Record α)
  /-- A run was stopped from outside. -/
  | stopped (iteration : Nat) (verdict : Verdict)

/-- The level of an event. -/
def Event.level {α : Type} : Event α → Level
  | .trial .. | .searchExhausted .. => .trace
  | .stepped .. | .examined .. => .debug
  | .converged .. | .exhausted .. | .observed .. | .stopped .. => .info

/-- **The wording of an event.** -/
def Event.message : Event Float → String
  | .trial index alpha theta thetaRef phi phiRef =>
    s!"line search trial {index}: alpha = " ++ Decimal.scientific alpha ++
      ", theta = " ++ Decimal.scientific theta ++ " (ref " ++ Decimal.scientific thetaRef ++
      "), phi = " ++ Decimal.scientific phi ++ " (ref " ++ Decimal.scientific phiRef ++ ")"
  | .searchExhausted alpha => "line search exhausted, using alpha = " ++ Decimal.scientific alpha
  | .stepped alpha alphaMax alphaDual mu =>
    "step: alpha primal " ++ Decimal.scientific alpha ++ " (max " ++ Decimal.scientific alphaMax ++
      "), alpha dual " ++ Decimal.scientific alphaDual ++ ", mu " ++ Decimal.scientific mu
  | .examined iteration primal dual mu =>
    "iter " ++ Decimal.padLeft 4 (toString iteration) ++ ": primal infeasibility " ++
      Decimal.scientific primal ++ ", dual infeasibility " ++ Decimal.scientific dual ++ ", mu " ++
      Decimal.scientific mu
  | .converged iteration primal dual =>
    s!"Converged in {iteration} iterations: primal infeasibility " ++ Decimal.scientific primal ++
      ", dual infeasibility " ++ Decimal.scientific dual
  | .exhausted iteration mu =>
    s!"No convergence after {iteration} iterations (mu = " ++ Decimal.scientific mu ++ ")"
  | .observed record =>
    "[" ++ Decimal.padLeft 4 (toString record.iteration) ++ "] " ++ record.progress.text ++
      " Primal Infeasibility: " ++ Decimal.scientific record.primal ++
      ", Dual Infeasibility: " ++ Decimal.scientific record.dual
  | .stopped iteration verdict =>
    s!"Terminated after {iteration} iterations with status: " ++ verdict.text

/-- **A result with the events that came up before it.** -/
structure Traced (α β : Type) where
  events : List (Event α)
  result : Except (Error α) β

namespace Traced

variable {α β γ : Type}

/-- Nothing comes up. -/
def ofExcept (r : Except (Error α) β) : Traced α β := ⟨[], r⟩

/-- One event comes up. -/
def note (e : Event α) : Traced α Unit := ⟨[e], .ok ()⟩

/-- One computation after the other, unless the first one fails. -/
def bind (t : Traced α β) (f : β → Traced α γ) : Traced α γ :=
  match t.result with
  | .error e => ⟨t.events, .error e⟩
  | .ok b => ⟨t.events ++ (f b).events, (f b).result⟩

instance : Monad (Traced α) where
  pure b := ofExcept (.ok b)
  bind := bind

instance : MonadLift (Except (Error α)) (Traced α) where
  monadLift := ofExcept

@[simp] theorem result_pure (b : β) : (pure b : Traced α β).result = .ok b := rfl

@[simp] theorem result_ofExcept (r : Except (Error α) β) : (ofExcept r).result = r := rfl

@[simp] theorem result_note (e : Event α) : (note e).result = .ok () := rfl

/-- **The result of a sequence is the sequence of the results.** -/
@[simp] theorem result_bind (t : Traced α β) (f : β → Traced α γ) :
    (t >>= f).result = t.result.bind fun b => (f b).result := by
  change (bind t f).result = _
  unfold bind
  cases t.result <;> rfl

end Traced

end InteriorPoint
