import InteriorPoint.Error
import InteriorPoint.Scalar

/-!
# Dual — numbers that carry one directional derivative

`⟨re, eps⟩` stands for `re + eps · ε` with `ε² = 0`: arithmetic on such numbers follows the rules
of differentiation, so a computation on them gives a value together with its derivative in the
direction that the tangents of its inputs spell out.
-/

namespace InteriorPoint

/-- A value with its tangent. -/
structure Dual (α : Type) where
  re : α
  eps : α

namespace Dual

variable {α : Type} [Scalar α]

/-- A value that does not move. -/
def constant (v : α) : Dual α := ⟨v, 0⟩

/-- A value that moves with unit speed. -/
def moving (v : α) : Dual α := ⟨v, 1⟩

instance : Add (Dual α) := ⟨fun a b => ⟨a.re + b.re, a.eps + b.eps⟩⟩

instance : Sub (Dual α) := ⟨fun a b => ⟨a.re - b.re, a.eps - b.eps⟩⟩

instance : Neg (Dual α) := ⟨fun a => ⟨-a.re, -a.eps⟩⟩

instance : Mul (Dual α) := ⟨fun a b => ⟨a.re * b.re, a.re * b.eps + a.eps * b.re⟩⟩

/-- Quotients go through the reciprocal of the divisor. -/
instance : Div (Dual α) where
  div a b :=
    let inv := 1 / b.re
    ⟨a.re * inv, (a.eps * b.re - a.re * b.eps) * inv * inv⟩

/-- **The chain rule**, given a function's value and derivative at `d.re`. A zero tangent stays
zero, also where the derivative is unbounded. -/
def chain (d : Dual α) (value derivative : α) : Dual α :=
  ⟨value, if d.eps == 0 then 0 else d.eps * derivative⟩

/-- Power with an integer exponent of thirty-two bits.  The derivative is taken with the exponent
before it, which the least one does not have. -/
def powInt (d : Dual α) (n : Int32) : Except (Error α) (Dual α) :=
  if n = Int32.minValue then .error (.missingExponent n)
  else .ok (d.chain (Scalar.powInt d.re n.toInt)
    (if n = 0 then 0 else Scalar.ofInt n.toInt * Scalar.powInt d.re (n.toInt - 1)))

/-- Power with a fixed scalar exponent. -/
def pow (d : Dual α) (c : α) : Dual α :=
  d.chain (Scalar.pow d.re c) (if c == 0 then 0 else c * Scalar.pow d.re (c - 1))

def exp (d : Dual α) : Dual α :=
  let e := Scalar.exp d.re
  d.chain e e

def ln (d : Dual α) : Dual α := d.chain (Scalar.ln d.re) (1 / d.re)

def sqrt (d : Dual α) : Dual α :=
  let s := Scalar.sqrt d.re
  d.chain s (0.5 / s)

/-- Value and tangent as text. -/
def text (d : Dual Float) : String :=
  Decimal.plain d.re ++ " + " ++ Decimal.plain d.eps ++ "ε"

end Dual

end InteriorPoint
