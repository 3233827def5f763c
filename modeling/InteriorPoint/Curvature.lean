import InteriorPoint.Matrix.Norms

/-!
# Curvature — the damped quasi-Newton update

After a step `s` along which the gradient of the Lagrangian changed by `y`, the model `Q` of
curvature is corrected so that it maps `s` to `r`, where `r` is `y` itself if the curvature along
`s` is large enough, and otherwise the mixture of `y` and `Q s` with a fifth of the curvature of
the model:

    Q - (Q s)(Q s)ᵀ / sᵀQs + r rᵀ / sᵀr
-/

namespace InteriorPoint.Curvature

variable {α : Type} [Scalar α]

/-- Refuses a scalar that is not finite and positive. -/
def requirePositive (quantity : Quantity) (v : α) : Except (Error α) Unit :=
  if Scalar.isFinite v ∧ 0 < v then .ok () else .error (.breakdown quantity v)

/-- How much of `y` goes into `r`, from the curvature of the model and that along the step. -/
def damping (sqs sy : α) : α :=
  if 0.2 * sqs ≤ sy then 1 else 0.8 * sqs / (sqs - sy)

/-- The products of all pairs of entries of a column vector, each divided by `d`. -/
def outer (v : Matrix α) (d : α) : Except (Error α) (Matrix α) :=
  if h : v.cols = 1 then
    .ok (.ofFn v.rows v.rows fun i j => v.entry h i * v.entry h j / d)
  else .error (.mismatch .curvature v.shape (v.rows, 1))

/-- **The damped update** of the model `q` after the step `s` with change of gradient `y`. -/
def update (s y q : Matrix α) : Except (Error α) (Matrix α) := do
  s.requireColumn .curvature
  if y.shape ≠ s.shape then throw (.mismatch .curvature y.shape s.shape)
  let qs ← q.multiply s
  let sqs ← s.dot qs
  requirePositive .curvatureModel sqs
  let theta := damping sqs (← s.dot y)
  let r ← (y.scale theta).add (qs.scale (1 - theta))
  let sr ← s.dot r
  requirePositive .curvatureChange sr
  (← q.subtract (← outer qs sqs)).add (← outer r sr)

/-- Whether a step goes nowhere, and so says nothing about curvature. -/
def isNull (s : Matrix α) : Bool := s.data.all (· == 0)

end InteriorPoint.Curvature
